import Boreas.Reader
import Boreas.Relay
import Boreas.Exchange

/-! # Reading a ClientHello

The reading half of intercept/mirror.rs and the wires of intercept/mitm.rs: `readHello` takes the host name, the
profile and the ALPN offer from the first record of a TLS client.  `Opens` says that a client's bytes start with a
well-formed `ClientHello`; if a host name was read, the record has the whole message (`whole_of_host`), and the reduced
offer exactly the wires that the client named (`wires_of_record`). -/

namespace Boreas.Intercept

open List hiding after all cons length nil tail
open Option hiding all none or_assoc some
open Http (ascii)
open Reader (all all_flatMap take take_append take_eq_some u16 u24 u8 vector16 vector8 vectorU16
  vectorU16_vector16 vectorU8 vectorU8_vector8)

/-! ### Wires -/

namespace Wire

def all : List Wire := [http2, http1]

def identifier : Wire → Bytes
  | http1 => ascii "http/1.1"
  | http2 => ascii "h2"

def fromIdentifier (name : Bytes) : Option Wire := all.find? (fun wire => wire.identifier == name)

def fromAlpn (selected : Option Bytes) : Wire := (selected.bind fromIdentifier).getD http1

theorem fromIdentifier_eq_some : fromIdentifier name = some wire ↔ wire.identifier = name := by
  constructor
  · intro h
    have hfound := find?_some h
    exact eq_of_beq hfound
  · rintro rfl
    cases wire <;> decide

theorem length_identifier_lt (wire : Wire) : wire.identifier.length < 256 := by
  cases wire <;> decide

theorem fromAlpn_identifier (wire : Wire) : fromAlpn (some wire.identifier) = wire := by
  unfold fromAlpn
  rw [Option.bind_some, fromIdentifier_eq_some.mpr rfl]
  rfl

end Wire

/-! ### The offer -/

/-- `alpn_list`: a name that does not fit its length byte is left out. -/
def alpnList (protocols : List Bytes) : Bytes :=
  protocols.flatMap fun protocol => if protocol.length < 256 then vector8 protocol else []

theorem all_alpnList (h : ∀ name ∈ names, name.length < 256) : all vectorU8 (alpnList names) = names :=
  all_flatMap rfl fun name hname rest => by
    rw [if_pos (h name hname)]
    exact vectorU8_vector8 (h name hname) rest

structure Offer where
  wires : List Wire
  nodup : wires.Nodup
deriving DecidableEq

namespace Offer

def default : Offer := ⟨[], nodup_nil⟩

def push (o : Offer) (name : Bytes) : Offer :=
  match Wire.fromIdentifier name with
  | none => o
  | some wire => if h : wire ∈ o.wires then o else ⟨o.wires ++ [wire], concat_eq_append ▸ o.nodup.concat h⟩

def read (body : Bytes) : Offer :=
  match vectorU16 body with
  | none => default
  | some (list, _) => (all vectorU8 list).foldl push default

def encode (o : Offer) : Bytes := alpnList (o.wires.map Wire.identifier)

theorem mem_push {o : Offer} : wire ∈ (o.push name).wires ↔ wire ∈ o.wires ∨ wire.identifier = name := by
  unfold push
  rw [← Wire.fromIdentifier_eq_some]
  rcases Wire.fromIdentifier name with _ | known
  · simp
  dsimp only
  split_ifs with h
  · simp only [Option.some.injEq, iff_self_or]
    rintro rfl
    exact h
  · simp [eq_comm]

theorem mem_foldl_push {names : List Bytes} :
    wire ∈ (names.foldl push o).wires ↔ wire ∈ o.wires ∨ wire.identifier ∈ names := by
  induction names generalizing o with
  | nil => simp
  | cons name names ih => rw [foldl_cons, ih, mem_push, mem_cons, or_assoc]

end Offer

/-! ### The hello -/

def extensionServerName : ℕ := 0x0000
def extensionSupportedGroups : ℕ := 0x000a
def extensionSignatureAlgorithms : ℕ := 0x000d
def extensionAlpn : ℕ := 0x0010
def extensionCompressCertificate : ℕ := 0x001b

def handshakeClientHello : UInt8 := 0x01
def nameTypeHost : UInt8 := 0x00

def isGrease (value : ℕ) : Bool := value / 256 == value % 256 && value % 16 == 0x0a

def groupName : ℕ → Option String
  | 23 => some "P-256"
  | 24 => some "P-384"
  | 25 => some "P-521"
  | 29 => some "X25519"
  | 0x0202 => some "MLKEM1024"
  | 0x11ec => some "X25519MLKEM768"
  | 0x6399 => some "X25519Kyber768Draft00"
  | _ => none

structure ClientProfile where
  groups : List String
  sigalgs : List ℕ
  compression : List ℕ
  grease : Bool
deriving DecidableEq, Repr

def ClientProfile.default : ClientProfile := ⟨[], [], [], false⟩

structure Hello where
  host : Option DomainName
  profile : ClientProfile
  alpn : Offer
deriving DecidableEq

def Hello.default : Hello := ⟨none, .default, .default⟩

def u16s (body : Bytes) : List ℕ := all u16 body

def codepoints (body : Bytes) : List ℕ := u16s (((vectorU16 body).map Prod.fst).getD [])

def nameEntry (bytes : Bytes) : Option ((UInt8 × Bytes) × Bytes) := do
  let (nameType, rest) ← u8 bytes
  let (name, rest) ← vectorU16 rest
  return ((nameType, name), rest)

/-- The first host name; a list that is cut short before one names no host. -/
def serverName (body : Bytes) : Option DomainName :=
  if body.length < 2 then none
  else
    match (all nameEntry (body.drop 2)).find? (fun entry => entry.1 = nameTypeHost) with
    | none => none
    | some (_, name) => if validUtf8 name then (DomainName.new name).toOption else none

def Hello.extension (hello : Hello) (kindBody : ℕ × Bytes) : Hello :=
  let (kind, body) := kindBody
  let profile := { hello.profile with grease := hello.profile.grease || isGrease kind }
  if kind = extensionServerName then { hello with profile := profile, host := serverName body }
  else if kind = extensionSupportedGroups then
    { hello with
      profile := { profile with
        grease := profile.grease || (codepoints body).any isGrease
        groups := (codepoints body).filterMap groupName } }
  else if kind = extensionSignatureAlgorithms then
    { hello with
      profile := { profile with
        grease := profile.grease || (codepoints body).any isGrease
        sigalgs := (codepoints body).filter (fun id => !isGrease id) } }
  else if kind = extensionAlpn then { hello with profile := profile, alpn := .read body }
  else if kind = extensionCompressCertificate then
    match vectorU8 body with
    | some (list, _) => { hello with profile := { profile with compression := u16s list } }
    | none => { hello with profile := profile }
  else { hello with profile := profile }

def extensionEntry (bytes : Bytes) : Option ((ℕ × Bytes) × Bytes) := do
  let (kind, rest) ← u16 bytes
  let (body, rest) ← vectorU16 rest
  return ((kind, body), rest)

def extensionsOf (body : Bytes) : Option Bytes := do
  let (_, rest) ← take 2 body
  let (_, rest) ← take 32 rest
  let (_, rest) ← vectorU8 rest
  let (_, rest) ← vectorU16 rest
  let (_, rest) ← vectorU8 rest
  let (extensions, _) ← vectorU16 rest
  return extensions

/-- The body of the handshake message that a record starts with; one cut over records is not reassembled. -/
def handshakeBody (record : Bytes) : Option Bytes := do
  let (kind, rest) ← u8 record
  if kind = handshakeClientHello then
    let (length, rest) ← u24 rest
    let (body, _) ← take length rest
    return body
  else none

def readHello (record : Bytes) : Hello :=
  match (handshakeBody record).bind extensionsOf with
  | none => .default
  | some extensions => (all extensionEntry extensions).foldl Hello.extension .default

/-! ### A well-formed ClientHello -/

def writeExtension (e : ℕ × Bytes) : Bytes := toBeBytes e.1 ++ vector16 e.2

/-- A ClientHello as TLS writes it, with the protocols it offers. The extensions may be absent as a whole. -/
structure ClientHello where
  version : Bytes
  random : Bytes
  sessionId : Bytes
  cipherSuites : Bytes
  compressionMethods : Bytes
  extensions : Option (List (ℕ × Bytes))
  offered : List Bytes
  version_length : version.length = 2
  random_length : random.length = 32
  sessionId_short : sessionId.length < 256
  cipherSuites_short : cipherSuites.length < 65536
  compressionMethods_short : compressionMethods.length < 256
  extensions_short : ∀ e ∈ extensions.getD [], e.1 < 65536 ∧ e.2.length < 65536
  block_short : ((extensions.getD []).flatMap writeExtension).length < 65536
  distinct : ((extensions.getD []).map Prod.fst).Nodup
  offered_short : ∀ name ∈ offered, name.length < 256
  list_short : (alpnList offered).length < 65536
  alpn : ∀ e ∈ extensions.getD [], e.1 = extensionAlpn → e.2 = vector16 (alpnList offered)
  noAlpn : extensionAlpn ∉ (extensions.getD []).map Prod.fst → offered = []

namespace ClientHello

def block : Option (List (ℕ × Bytes)) → Bytes
  | none => []
  | some extensions => vector16 (extensions.flatMap writeExtension)

def body (h : ClientHello) : Bytes :=
  h.version ++ (h.random ++ (vector8 h.sessionId ++ (vector16 h.cipherSuites ++
    (vector8 h.compressionMethods ++ block h.extensions))))

def encode (h : ClientHello) : Bytes := handshakeClientHello :: (octets 3 h.body.length ++ h.body)

def FirstRecord (bytes record : Bytes) : Prop :=
  ∃ (minor : UInt8) (rest : Bytes), record.length < 65536 ∧ bytes = 0x16 :: 0x03 :: minor :: (vector16 record ++ rest)

/-- The bytes start with a record that has the whole message, or a first part of it. -/
def Opens (h : ClientHello) (bytes : Bytes) : Prop :=
  ∃ record, FirstRecord bytes record ∧ (record <+: h.encode ∨ h.encode <+: record)

theorem length_body_lt (h : ClientHello) : h.body.length < 256 ^ 3 := by
  have hver := h.version_length
  have hrandom := h.random_length
  have hsess := h.sessionId_short
  have hsuites := h.cipherSuites_short
  have hmethods := h.compressionMethods_short
  have hblock : (block h.extensions).length ≤ 65538 := by
    have hshort := h.block_short
    rcases hexts : h.extensions with _ | exts
    · exact Nat.zero_le _
    rw [hexts, getD_some] at hshort
    simp only [block, vector16, length_append, length_toBeBytes]
    omega
  simp only [body, vector8, vector16, length_append, length_cons, length_toBeBytes]
  omega

/-! ### What is read of it -/

theorem handshakeBody_encode (h : ClientHello) : handshakeBody (h.encode ++ rest) = some h.body := by
  unfold handshakeBody encode
  rw [cons_append, append_assoc]
  simp only [u8, u24, bind_eq_bind, Option.bind_some, if_pos, Reader.number_octets h.length_body_lt,
    take_append rfl rest, Option.pure_def]

theorem eq_of_handshakeBody {body : Bytes} (h : handshakeBody record = some body) :
    ∃ size rest, size.length = 3 ∧ body.length = ofOctets size ∧
      record = handshakeClientHello :: (size ++ (body ++ rest)) := by
  obtain ⟨⟨kind, tail⟩, hkind, h⟩ := bind_eq_some_iff.mp h
  have hrec := Reader.u8_eq_some.mp hkind
  dsimp only at h
  split_ifs at h with hhello
  obtain ⟨⟨length, tail'⟩, hlen, h⟩ := bind_eq_some_iff.mp h
  obtain ⟨⟨taken, rest⟩, htaken, h⟩ := bind_eq_some_iff.mp h
  cases h
  obtain ⟨⟨size, after⟩, hsize, hnum⟩ := map_eq_some_iff.mp hlen
  cases hnum
  obtain ⟨rfl, hthree⟩ := take_eq_some.mp hsize
  obtain ⟨rfl, hbody⟩ := take_eq_some.mp htaken
  exact ⟨size, rest, hthree, hbody, hhello ▸ hrec⟩

variable {h : ClientHello}

theorem encode_prefix_of_handshakeBody {body : Bytes} (hrec : record <+: h.encode)
    (hbody : handshakeBody record = some body) : h.encode <+: record := by
  obtain ⟨size, rest, hthree, hlen, rfl⟩ := eq_of_handshakeBody hbody
  obtain ⟨more, hmore⟩ := hrec
  rw [cons_append, append_assoc] at hmore
  obtain ⟨rfl, htail⟩ := append_inj (List.cons.inj hmore).2 (by rw [hthree, length_octets])
  rw [ofOctets_octets h.length_body_lt] at hlen
  have hparts := congrArg List.length htail
  simp only [length_append] at hparts
  have hrest : rest = [] := length_eq_zero_iff.mp (by omega)
  have hnone : more = [] := length_eq_zero_iff.mp (by omega)
  rw [hrest, hnone, append_nil, append_nil] at htail
  rw [hrest, htail, append_nil]
  exact prefix_refl _

theorem extensionsOf_body (h : ClientHello) :
    extensionsOf h.body = h.extensions.map fun exts => exts.flatMap writeExtension := by
  unfold extensionsOf body
  simp only [bind_eq_bind, take_append h.version_length, take_append h.random_length,
    vectorU8_vector8 h.sessionId_short, vectorU16_vector16 h.cipherSuites_short,
    vectorU8_vector8 h.compressionMethods_short, Option.bind_some]
  have hshort := h.block_short
  rcases hexts : h.extensions with _ | exts
  · rfl
  rw [hexts] at hshort
  have hblock : vectorU16 (block (some exts)) = some (exts.flatMap writeExtension, []) := by
    simpa [block] using vectorU16_vector16 hshort []
  rw [hblock]
  rfl

theorem readHello_encode (h : ClientHello) :
    readHello (h.encode ++ rest) = (h.extensions.getD []).foldl Hello.extension .default := by
  unfold readHello
  rw [handshakeBody_encode, Option.bind_some, extensionsOf_body]
  have hshort := h.extensions_short
  rcases hexts : h.extensions with _ | extensions
  · rfl
  rw [hexts] at hshort
  have hread : all extensionEntry (extensions.flatMap writeExtension) = extensions := by
    refine all_flatMap rfl fun e he rest => ?_
    unfold extensionEntry writeExtension
    rw [append_assoc]
    simp only [bind_eq_bind, Reader.u16_toBeBytes (hshort e he).1, vectorU16_vector16 (hshort e he).2,
      Option.bind_some, Option.pure_def]
  rw [map_some]
  dsimp only
  rw [hread, getD_some]

theorem alpn_extension (hello : Hello) :
    (hello.extension e).alpn = if e.1 = extensionAlpn then .read e.2 else hello.alpn := by
  unfold Hello.extension
  dsimp only
  split_ifs <;> first | rfl | (rename_i h h'; rw [h] at h'; cases h') | (split <;> rfl)

theorem alpn_foldl {body : Bytes} : ∀ (exts : List (ℕ × Bytes)) (hello : Hello),
    (∀ e ∈ exts, e.1 = extensionAlpn → e.2 = body) → (exts.foldl Hello.extension hello).alpn =
        if extensionAlpn ∈ exts.map Prod.fst then .read body else hello.alpn
  | [], _, _ => rfl
  | e :: exts, hello, h => by
    rw [foldl_cons, alpn_foldl exts _ fun e' he' => h e' (mem_cons_of_mem _ he'), alpn_extension]
    by_cases hkind : e.1 = extensionAlpn
    · rw [if_pos hkind, h e mem_cons_self hkind, ite_self, if_pos (by simp [hkind])]
    have hmem : extensionAlpn ∈ (e :: exts).map Prod.fst ↔ extensionAlpn ∈ exts.map Prod.fst := by
      rw [map_cons, mem_cons]
      exact or_iff_right (Ne.symm hkind)
    rw [if_neg hkind]
    simp only [hmem]

theorem read_alpnList (h : ClientHello) : Offer.read (vector16 (alpnList h.offered)) = h.offered.foldl .push .default := by
  have hlist : vectorU16 (vector16 (alpnList h.offered)) = some (alpnList h.offered, []) := by
    simpa using vectorU16_vector16 h.list_short []
  unfold Offer.read
  rw [hlist]
  dsimp only
  rw [all_alpnList h.offered_short]

/-- **The offer that is read has the wires that were named.** -/
theorem mem_wires_readHello (h : ClientHello) (rest : Bytes) (wire : Wire) :
    wire ∈ (readHello (h.encode ++ rest)).alpn.wires ↔ wire.identifier ∈ h.offered := by
  rw [readHello_encode, alpn_foldl _ _ h.alpn]
  split_ifs with halpn
  · rw [read_alpnList, Offer.mem_foldl_push]
    simp [Offer.default]
  · rw [h.noAlpn halpn]
    simp [Hello.default, Offer.default]

/-- A record from which a host name is read has the whole message. -/
theorem whole_of_host (hrec : record <+: h.encode ∨ h.encode <+: record)
    (hhost : (readHello record).host ≠ none) : h.encode <+: record := by
  rcases hrec with hpart | hwhole
  · cases hbody : handshakeBody record with
    | none =>
      unfold readHello at hhost
      rw [hbody] at hhost
      exact absurd rfl hhost
    | some body => exact encode_prefix_of_handshakeBody hpart hbody
  · exact hwhole

theorem wires_of_record (hwhole : h.encode <+: record) (wire : Wire) :
    wire ∈ (readHello record).alpn.wires ↔ wire.identifier ∈ h.offered := by
  obtain ⟨rest, rfl⟩ := hwhole
  exact h.mem_wires_readHello rest wire

end ClientHello

end Boreas.Intercept
