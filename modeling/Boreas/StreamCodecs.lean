import Boreas.Codec
import Boreas.ShadowsocksUdp
import Boreas.Vless

/-! # The stream codecs

The two implementations of `Codec`: the VLESS response header (egress/vless.rs), which is stripped from the front of
a stream that is otherwise passed on, and the stream framing of Shadowsocks 2022 (egress/shadowsocks.rs), in which
the length of each block follows from the block before.  The key derivation and the AEAD are parameters. -/

namespace Boreas

open Reader

/-! ### VLESS -/

namespace Vless

structure ResponseHeader where
  stripped : Bool
deriving DecidableEq, Repr

def ResponseHeader.decode (c : ResponseHeader) (input : Bytes) : ResponseHeader × Bytes × Except ProxyError Decode :=
  if c.stripped then (c, [], .ok (.transparent input))
  else
    match decodeResponse input with
    | .error e => (c, [], .error e)
    | .ok .incomplete => (c, [], .ok (.framed input))
    | .ok (.complete () consumed) =>
      if input.length < consumed then (⟨true⟩, [], .error .header)
      else (⟨true⟩, [], .ok (.transparent (input.drop consumed)))

def ResponseHeader.codec : Codec where
  State := ResponseHeader
  decode := ResponseHeader.decode
  writes _ := .verbatim
  Alike := Eq
  decode_append c input more h := by
    unfold ResponseHeader.decode at h ⊢
    split_ifs at h ⊢ with hstripped
    · rfl
    · have hcomplete : decodeResponse input ≠ .ok .incomplete := by
        intro hincomplete
        rw [hincomplete] at h
        exact h rfl
      rw [decodeResponse_append hcomplete more]
      match hresponse : decodeResponse input with
      | .error e => rfl
      | .ok .incomplete => exact absurd hresponse hcomplete
      | .ok (.complete () consumed) =>
        obtain ⟨header, rest, rfl, rfl, -⟩ := decodeResponse_complete hresponse
        simp [List.append_assoc, Except.map, Decode.extend]
  decode_framed {c c' input out rest} h := by
    unfold ResponseHeader.decode at h
    split_ifs at h with hstripped
    · simp at h
    · match hresponse : decodeResponse input with
      | .error e => simp [hresponse] at h
      | .ok .incomplete =>
        simp only [hresponse, Prod.mk.injEq, Except.ok.injEq, Decode.framed.injEq] at h
        exact .inl ⟨h.1.symm, h.2.1.symm, h.2.2.symm⟩
      | .ok (.complete () consumed) =>
        rw [hresponse] at h
        dsimp only at h
        split_ifs at h <;> simp at h
  encode_error {c c' payload out e} h := by
    have hout : ([] : Bytes) = out := congrArg (fun answer => answer.2.1) h
    exact hout.symm
  alike_decode input h := by subst h; exact ⟨rfl, rfl⟩
  alike_encode _ _ := rfl

end Vless

/-! ### Shadowsocks 2022 -/

namespace Shadowsocks

inductive Method
  | aes128Gcm
  | aes256Gcm
  | chaCha20Poly1305
deriving DecidableEq, Repr

def Method.keyLen : Method → ℕ
  | aes128Gcm => 16
  | aes256Gcm => 32
  | chaCha20Poly1305 => 32

def Method.saltLen (method : Method) : ℕ := method.keyLen

/-- The libraries: BLAKE3's `derive_key`, and the AEAD's keys with `open_in_place` and `seal_in_place_append_tag`. -/
structure Crypto where
  deriveKey : String → Bytes → Bytes
  Key : Type
  unboundKey : Method → Bytes → Option Key
  openInPlace : Key → Bytes → Bytes → Option Bytes
  sealInPlace : Key → Bytes → Bytes → Option Bytes

structure PreSharedKey where
  bytes : Bytes
  method : Method
deriving DecidableEq, Repr

def subkeyContext : String := "shadowsocks 2022 session subkey"

def PreSharedKey.subkey (K : Crypto) (key : PreSharedKey) (salt : Bytes) : Bytes :=
  (K.deriveKey subkeyContext (key.bytes ++ salt)).take key.method.keyLen

structure Session (K : Crypto) where
  key : K.Key
  counter : UInt64

namespace Session

variable {K : Crypto}

def new (K : Crypto) (method : Method) (subkey : Bytes) : Except ProxyError (Session K) :=
  (okOr .crypto (K.unboundKey method subkey)).map fun key => ⟨key, 0⟩

/-- The counter in the low eight bytes, least significant first. -/
def nonce (s : Session K) : Bytes := (octets 8 s.counter.toNat).reverse ++ List.replicate 4 0

def sealBlock (s : Session K) (block : Bytes) : Session K × Except ProxyError Bytes :=
  ({ s with counter := s.counter + 1 }, okOr .crypto (K.sealInPlace s.key s.nonce block))

def openBlock (s : Session K) (block : Bytes) : Session K × Except ProxyError Bytes :=
  ({ s with counter := s.counter + 1 }, okOr .crypto (K.openInPlace s.key s.nonce block))

end Session

def typeResponse : UInt8 := 1

def maxChunk : ℕ := 0xffff

def decodeResponseFixed (plain requestSalt : Bytes) (now : ℕ) : Except ProxyError ℕ :=
  if plain.length ≠ 1 + 8 + requestSalt.length + 2 then .error .header
  else
    match u8 plain with
    | none => .error .header
    | some (type, rest) =>
      match u64 rest with
      | none => .error .header
      | some (stamp, rest) =>
        if type ≠ typeResponse then .error .header
        else do
          checkTimestamp stamp now
          match take requestSalt.length rest with
          | none => .error .saltMismatch
          | some (salt, rest) =>
            if salt ≠ requestSalt then .error .saltMismatch
            else (okOr .header (u16 rest)).map Prod.fst

inductive ReadState
  | salt
  | fixedHeader
  | length
  | payload (length : ℕ)
deriving DecidableEq, Repr

structure StreamCodec (K : Crypto) where
  writer : Session K
  reader : Option (Session K)
  method : Method
  key : PreSharedKey
  requestSalt : Bytes
  state : ReadState

namespace StreamCodec

variable {K : Crypto}

def needed (c : StreamCodec K) : ℕ :=
  match c.state with
  | .salt => c.method.saltLen
  | .fixedHeader => 1 + 8 + c.method.saltLen + 2 + tag
  | .length => 2 + tag
  | .payload length => length + tag

variable (now : ℕ) (c : StreamCodec K)

theorem needed_pos : 0 < c.needed := by
  unfold needed
  cases c.state with
  | salt => cases c.method <;> decide
  | fixedHeader | length | payload length => exact Nat.add_pos_right _ (by decide)

def opening (c : StreamCodec K) (block : Bytes) (next : Bytes → Except ProxyError (ReadState × Bytes)) :
    StreamCodec K × Bytes × Except ProxyError Unit :=
  match c.reader with
  | none => (c, [], .error .header)
  | some reader =>
    match reader.openBlock block with
    | (reader, .error e) => ({ c with reader := some reader }, [], .error e)
    | (reader, .ok plain) =>
      match next plain with
      | .error e => ({ c with reader := some reader }, [], .error e)
      | .ok (state, out) => ({ c with reader := some reader, state := state }, out, .ok ())

def take (now : ℕ) (c : StreamCodec K) (block : Bytes) : StreamCodec K × Bytes × Except ProxyError Unit :=
  match c.state with
  | .salt =>
    match Session.new K c.method (c.key.subkey K block) with
    | .error e => (c, [], .error e)
    | .ok reader => ({ c with reader := some reader, state := .fixedHeader }, [], .ok ())
  | .fixedHeader =>
    c.opening block fun plain =>
      (decodeResponseFixed plain c.requestSalt now).map fun length => (.payload length, [])
  | .length => c.opening block fun plain => (okOr .header (u16 plain)).map fun read => (.payload read.1, [])
  | .payload _ => c.opening block fun plain => .ok (.length, plain)

/-- `decode`; the clock is only read where the header is opened, and `now` is what it shows there. -/
def decode (now : ℕ) (c : StreamCodec K) (input : Bytes) : StreamCodec K × Bytes × Except ProxyError Decode :=
  match Reader.take c.needed input with
  | none => (c, [], .ok (.framed input))
  | some (block, rest) =>
    let (c, out, result) := c.take now block
    (c, out, result.map fun () => .framed rest)

def encode (c : StreamCodec K) (payload : Bytes) : StreamCodec K × Bytes × Except ProxyError Unit :=
  match c.writer.sealBlock (toBeBytes payload.length) with
  | (writer, .error e) => ({ c with writer := writer }, [], .error e)
  | (writer, .ok length) =>
    match writer.sealBlock payload with
    | (writer, .error e) => ({ c with writer := writer }, [], .error e)
    | (writer, .ok body) => ({ c with writer := writer }, length ++ body, .ok ())

/-! The codec's laws. -/

variable {block : Bytes}

theorem decode_block {c : StreamCodec K} (h : block.length = c.needed) (rest : Bytes) : c.decode now (block ++ rest) =
      ((c.take now block).1, (c.take now block).2.1, (c.take now block).2.2.map fun () => .framed rest) := by
  unfold decode
  rw [take_append h]

theorem decode_cases (input : Bytes) : c.decode now input = (c, [], .ok (.framed input)) ∨
      ∃ block rest, input = block ++ rest ∧ block.length = c.needed ∧ c.decode now input =
          ((c.take now block).1, (c.take now block).2.1, (c.take now block).2.2.map fun () => .framed rest) := by
  rcases htake : Reader.take c.needed input with _ | read
  · left
    unfold decode
    rw [htake]
  obtain ⟨hinput, hblock⟩ := Reader.take_eq_some.mp htake
  exact .inr ⟨read.1, read.2, hinput, hblock, hinput ▸ decode_block now hblock read.2⟩

variable (writer : Session K)

theorem opening_writer (block : Bytes) (next : Bytes → Except ProxyError (ReadState × Bytes)) :
    ({ c with writer := writer } : StreamCodec K).opening block next =
      ({ (c.opening block next).1 with writer := writer }, (c.opening block next).2) := by
  obtain ⟨_, reader, _, _, _, _⟩ := c
  unfold opening
  rcases reader with _ | reader
  · rfl
  dsimp only [Session.openBlock]
  rcases okOr ProxyError.crypto (K.openInPlace reader.key reader.nonce block) with _ | plain
  · rfl
  dsimp only
  cases next plain with
  | error e | ok read => rfl

theorem take_writer (block : Bytes) : ({ c with writer := writer } : StreamCodec K).take now block =
      ({ (c.take now block).1 with writer := writer }, (c.take now block).2) := by
  obtain ⟨w, reader, method, key, salt, state⟩ := c
  cases state with
  | salt =>
    dsimp only [take]
    cases Session.new K method (key.subkey K block) <;> rfl
  | fixedHeader => exact opening_writer ⟨w, reader, method, key, salt, .fixedHeader⟩ writer block _
  | length => exact opening_writer ⟨w, reader, method, key, salt, .length⟩ writer block _
  | payload length =>
    exact opening_writer ⟨w, reader, method, key, salt, .payload length⟩ writer block fun plain => .ok (.length, plain)

theorem decode_writer (input : Bytes) : ({ c with writer := writer } : StreamCodec K).decode now input =
      ({ (c.decode now input).1 with writer := writer }, (c.decode now input).2) := by
  have hneeded : ({ c with writer := writer } : StreamCodec K).needed = c.needed := rfl
  unfold decode
  rw [hneeded]
  rcases Reader.take c.needed input with _ | read
  · rfl
  dsimp only
  rw [take_writer]

theorem encode_writer (payload : Bytes) : ∃ writer, (c.encode payload).1 = { c with writer := writer } := by
  unfold encode
  split
  · exact ⟨_, rfl⟩
  · split <;> exact ⟨_, rfl⟩

def codec (K : Crypto) (now : ℕ) : Codec where
  State := StreamCodec K
  decode := decode now
  encode := encode
  maxPayload _ := maxChunk
  Alike c c' := ∃ writer, c' = { c with writer := writer }
  decode_append c input more h := by
    rcases c.decode_cases now input with hwaits | ⟨block, rest, rfl, hblock, htakes⟩
    · exact absurd hwaits h
    · rw [htakes, List.append_assoc, decode_block now hblock]
      cases (c.take now block).2.2 <;> rfl
  decode_framed {c c' input out rest} h := by
    rcases c.decode_cases now input with hwaits | ⟨block, after, rfl, hblock, htakes⟩
    · rw [h] at hwaits
      exact .inl (by simpa using hwaits)
    · rw [h] at htakes
      have hresult := (Prod.mk.inj (Prod.mk.inj htakes).2).2
      cases hblocked : (c.take now block).2.2 with
      | error e =>
        rw [hblocked] at hresult
        cases hresult
      | ok u =>
        rw [hblocked] at hresult
        cases hresult
        refine .inr ⟨List.suffix_append _ _, fun heq => ?_⟩
        have hpos := c.needed_pos
        have hlength := congrArg List.length heq
        rw [List.length_append] at hlength
        omega
  encode_error {c c' payload out e} h := by
    unfold encode at h
    split at h
    · exact (Prod.mk.inj (Prod.mk.inj h).2).1.symm
    · split at h
      · exact (Prod.mk.inj (Prod.mk.inj h).2).1.symm
      · simp at h
  alike_decode {c c'} input h := by
    obtain ⟨writer, rfl⟩ := h
    have hsame := decode_writer now c writer input
    exact ⟨(congrArg Prod.snd hsame).symm, writer, congrArg Prod.fst hsame⟩
  alike_encode c payload := c.encode_writer payload

end StreamCodec

end Shadowsocks

end Boreas
