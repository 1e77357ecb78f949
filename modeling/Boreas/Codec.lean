import Boreas.Relay
import Boreas.Reader

/-! # Codecs

The vocabulary of sansio.rs for stream framing.  A codec is only ever shown as much of a stream as has arrived, so the
structure carries what a stream needs of it: an answer that is not "more input" stays the same when more bytes follow,
a frame is taken from the front, an encoding that fails leaves nothing behind.  `decoding` is what a codec makes of a
whole stream. -/

namespace Boreas

/-- What a codec says of its input: a frame, or everything from here on, and what is left behind it. -/
inductive Decode
  | framed (rest : Bytes)
  | transparent (rest : Bytes)
deriving DecidableEq, Repr

namespace Decode

def rest : Decode → Bytes
  | framed rest => rest
  | transparent rest => rest

def consumed (d : Decode) (input : Bytes) : ℕ := input.length - d.rest.length

def extend (more : Bytes) : Decode → Decode
  | framed rest => framed (rest ++ more)
  | transparent rest => transparent (rest ++ more)

end Decode

inductive Writes
  | framed
  | verbatim
deriving DecidableEq, Repr

def usizeMax : ℕ := 2 ^ 64 - 1

/-- A codec: `decode` and `encode` give the state after the call, what they appended to the output, and the result.
`Alike` relates states that decode alike. -/
structure Codec where
  State : Type
  decode : State → Bytes → State × Bytes × Except ProxyError Decode
  encode : State → Bytes → State × Bytes × Except ProxyError Unit := fun s _ => (s, [], .error .unframed)
  maxPayload : State → ℕ := fun _ => usizeMax
  writes : State → Writes := fun _ => .framed
  Alike : State → State → Prop
  decode_append : ∀ s input more, decode s input ≠ (s, [], .ok (.framed input)) →
    decode s (input ++ more) =
      ((decode s input).1, (decode s input).2.1, (decode s input).2.2.map (Decode.extend more))
  decode_framed : ∀ {s s' input out rest}, decode s input = (s', out, .ok (.framed rest)) →
    s' = s ∧ out = [] ∧ rest = input ∨ rest <:+ input ∧ rest ≠ input
  encode_error : ∀ {s s' payload out e}, encode s payload = (s', out, .error e) → out = []
  alike_decode : ∀ {s t} input, Alike s t →
    (decode s input).2 = (decode t input).2 ∧ Alike (decode s input).1 (decode t input).1
  alike_encode : ∀ s payload, Alike s (encode s payload).1

namespace Codec

variable {C : Codec} {s s' t : C.State} {input out rest : Bytes}

def decoding (C : Codec) (s : C.State) (input : Bytes) : Bytes :=
  if input = [] then []
  else
    match C.decode s input with
    | (_, out, .ok (.transparent rest)) => out ++ rest
    | (s, out, .ok (.framed rest)) => if rest.length < input.length then out ++ C.decoding s rest else []
    | (_, _, .error _) => []
termination_by input.length

@[simp] theorem decoding_nil : C.decoding s [] = [] := by rw [decoding, if_pos rfl]

theorem decoding_framed (h : C.decode s input = (s', out, .ok (.framed rest))) (hne : rest ≠ input) (more : Bytes) :
    C.decoding s (input ++ more) = out ++ C.decoding s' (rest ++ more) := by
  have hlen : rest.length < input.length := by
    rcases C.decode_framed h with ⟨-, -, hrest⟩ | ⟨hsuf, -⟩
    · exact absurd hrest hne
    · exact lt_of_le_of_ne hsuf.length_le fun heq => hne (hsuf.eq_of_length heq)
  have happ := C.decode_append s input more (by rw [h]; simp [hne])
  rw [h] at happ
  have hnonempty : input ++ more ≠ [] := by
    intro hnil
    rw [(List.append_eq_nil_iff.mp hnil).1] at hlen
    exact absurd hlen (Nat.not_lt_zero _)
  rw [decoding, if_neg hnonempty, happ]
  exact if_pos (by simpa using hlen)

theorem decoding_transparent (h : C.decode s input = (s', out, .ok (.transparent rest))) (hne : input ≠ [])
    (more : Bytes) : C.decoding s (input ++ more) = out ++ rest ++ more := by
  have happ := C.decode_append s input more (by rw [h]; simp)
  rw [h] at happ
  rw [decoding, if_neg (by simp [hne]), happ, List.append_assoc]
  rfl

theorem decoding_error (h : C.decode s input = (s', out, .error e)) (hne : input ≠ []) (more : Bytes) :
    C.decoding s (input ++ more) = [] := by
  have happ := C.decode_append s input more (by rw [h]; simp)
  rw [h] at happ
  rw [decoding, if_neg (by simp [hne]), happ]
  rfl

theorem decoding_waits (h : C.decode s input = (s', out, .ok (.framed input))) : C.decoding s input = [] := by
  rw [decoding, h]
  simp

theorem decoding_alike : ∀ (n : ℕ) {s t : C.State} (input : Bytes), input.length ≤ n → C.Alike s t →
    C.decoding s input = C.decoding t input := by
  intro n
  induction n with
  | zero =>
    intro s t input hn _
    rw [List.length_eq_zero_iff.mp (Nat.le_zero.mp hn), decoding_nil, decoding_nil]
  | succ n ih =>
    intro s t input hn halike
    obtain ⟨hsame, halike'⟩ := C.alike_decode input halike
    rw [decoding, decoding]
    rcases hs : C.decode s input with ⟨s', answer⟩
    rcases ht : C.decode t input with ⟨t', answer'⟩
    rw [hs, ht] at hsame halike'
    subst hsame
    obtain ⟨out, result⟩ := answer
    match result with
    | .error _ | .ok (.transparent _) => rfl
    | .ok (.framed rest) =>
      dsimp only
      by_cases hlen : rest.length < input.length
      · rw [if_pos hlen, if_pos hlen, ih rest (by omega) halike']
      · rw [if_neg hlen, if_neg hlen]

theorem decoding_encode : C.decoding (C.encode s payload).1 input = C.decoding s input :=
  (decoding_alike input.length input le_rfl (C.alike_encode s payload)).symm

end Codec

end Boreas
