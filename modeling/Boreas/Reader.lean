import Boreas.Wire

/-! # Reading from the front

`Reader` (wire.rs) as a function of what is left to read: each accessor gives what it read and the rest, or nothing
when the input is too short.  `take_eq_some` says what a read leaves of the input; the others are reads of fixed
lengths. -/

namespace Boreas

open List Option

/-- What a decoder of untrusted bytes gives (sansio.rs): it needs more input, or a value and the bytes it took. -/
inductive Decoded (α : Type*)
  | incomplete
  | complete (value : α) (consumed : ℕ)
deriving DecidableEq, Repr

def validUtf8 (bytes : Bytes) : Bool := (ByteArray.mk bytes.toArray).validateUTF8

namespace Reader

def take (n : ℕ) (bytes : Bytes) : Option (Bytes × Bytes) :=
  if n ≤ bytes.length then some (bytes.take n, bytes.drop n) else none

def u8 : Bytes → Option (UInt8 × Bytes)
  | [] => none
  | b :: rest => some (b, rest)

def u16 : Bytes → Option (ℕ × Bytes)
  | high :: low :: rest => some (fromBeBytes high low, rest)
  | _ => none

def number (n : ℕ) (bytes : Bytes) : Option (ℕ × Bytes) :=
  (take n bytes).map fun (taken, rest) => (ofOctets taken, rest)

def u24 : Bytes → Option (ℕ × Bytes) := number 3

def u32 : Bytes → Option (ℕ × Bytes) := number 4

def u64 : Bytes → Option (ℕ × Bytes) := number 8

def varint (bytes : Bytes) : Option (ℕ × Bytes) :=
  match bytes with
  | [] => none
  | first :: _ =>
    let length := 2 ^ (first.toNat / 64)
    (number length bytes).map fun (value, rest) => (value % 2 ^ (8 * length - 2), rest)

def vectorU8 (bytes : Bytes) : Option (Bytes × Bytes) := do
  let (length, rest) ← u8 bytes
  take length.toNat rest

def vectorU16 (bytes : Bytes) : Option (Bytes × Bytes) := do
  let (length, rest) ← u16 bytes
  take length rest

def rounds {α : Type*} (read : Bytes → Option (α × Bytes)) : ℕ → Bytes → List α
  | 0, _ => []
  | fuel + 1, bytes =>
    match read bytes with
    | none => []
    | some (value, rest) => value :: rounds read fuel rest

def all {α : Type*} (read : Bytes → Option (α × Bytes)) (bytes : Bytes) : List α := rounds read bytes.length bytes

variable {n : ℕ}

theorem take_eq_some : take n bytes = some (taken, rest) ↔ bytes = taken ++ rest ∧ taken.length = n := by
  unfold take
  constructor
  · intro h
    split_ifs at h with hle
    cases h
    exact ⟨(take_append_drop n bytes).symm, length_take_of_le hle⟩
  · rintro ⟨rfl, rfl⟩
    simp

variable {bytes rest : Bytes}

theorem u8_eq_some : u8 bytes = some (b, rest) ↔ bytes = b :: rest := by
  cases bytes with
  | nil | cons c cs => simp [u8]

theorem u16_eq_some :
    u16 bytes = some (n, rest) ↔ ∃ high low, bytes = high :: low :: rest ∧ n = fromBeBytes high low := by
  constructor
  · intro h
    match bytes, h with
    | high :: low :: tail, h =>
      cases h
      exact ⟨high, low, rfl, rfl⟩
  · rintro ⟨high, low, rfl, rfl⟩
    rfl

theorem vectorU8_eq_some (h : vectorU8 bytes = some (body, rest)) :
    ∃ length : UInt8, bytes = length :: (body ++ rest) ∧ body.length = length.toNat := by
  unfold vectorU8 at h
  obtain ⟨⟨length, tail⟩, hlen, htake⟩ := bind_eq_some_iff.mp h
  obtain ⟨rfl, hbody⟩ := take_eq_some.mp htake
  exact ⟨length, u8_eq_some.mp hlen, hbody⟩

theorem vectorU16_eq_some (h : vectorU16 bytes = some (body, rest)) :
    ∃ high low, bytes = high :: low :: (body ++ rest) ∧ body.length = fromBeBytes high low := by
  unfold vectorU16 at h
  obtain ⟨⟨length, tail⟩, hlen, htake⟩ := bind_eq_some_iff.mp h
  obtain ⟨rfl, hbody⟩ := take_eq_some.mp htake
  obtain ⟨high, low, rfl, rfl⟩ := u16_eq_some.mp hlen
  exact ⟨high, low, rfl, hbody⟩

theorem vectorU16_append (h : vectorU16 bytes = some (body, rest)) (more : Bytes) :
    vectorU16 (bytes ++ more) = some (body, rest ++ more) := by
  obtain ⟨high, low, rfl, hbody⟩ := vectorU16_eq_some h
  rw [cons_append, cons_append, append_assoc]
  unfold vectorU16
  exact bind_eq_some_iff.mpr ⟨(_, body ++ (rest ++ more)), rfl, take_eq_some.mpr ⟨rfl, hbody⟩⟩

/-! ### Reading what goes on

More input changes nothing of what was read before it. -/

theorem take_more (h : take n bytes = some (taken, rest)) (more : Bytes) :
    take n (bytes ++ more) = some (taken, rest ++ more) := by
  obtain ⟨rfl, hlen⟩ := take_eq_some.mp h
  exact take_eq_some.mpr ⟨append_assoc _ _ _, hlen⟩

theorem u8_more (h : u8 bytes = some (b, rest)) (more : Bytes) : u8 (bytes ++ more) = some (b, rest ++ more) := by
  rw [u8_eq_some.mp h]
  rfl

theorem u16_more (h : u16 bytes = some (n, rest)) (more : Bytes) : u16 (bytes ++ more) = some (n, rest ++ more) := by
  obtain ⟨high, low, rfl, rfl⟩ := u16_eq_some.mp h
  rfl

theorem vectorU8_more (h : vectorU8 bytes = some (body, rest)) (more : Bytes) :
    vectorU8 (bytes ++ more) = some (body, rest ++ more) := by
  obtain ⟨⟨length, tail⟩, hlen, htake⟩ := bind_eq_some_iff.mp h
  exact bind_eq_some_iff.mpr ⟨(length, tail ++ more), u8_more hlen more, take_more htake more⟩

theorem varint_more (h : varint bytes = some (n, rest)) (more : Bytes) :
    varint (bytes ++ more) = some (n, rest ++ more) := by
  rcases bytes with _ | ⟨first, tail⟩
  · cases h
  unfold varint number at h ⊢
  obtain ⟨⟨value, after⟩, hvalue, hread⟩ := map_eq_some_iff.mp h
  obtain ⟨⟨taken, left⟩, htake, hnum⟩ := map_eq_some_iff.mp hvalue
  cases hnum
  cases hread
  rw [cons_append]
  dsimp only
  rw [← cons_append, take_more htake more]
  rfl

def Stable {ε α : Type*} (decode : Bytes → Except ε (Decoded α)) : Prop :=
  ∀ bytes more, decode bytes ≠ .ok .incomplete → decode (bytes ++ more) = decode bytes

/-! ### Reading what was written -/

theorem take_append (h : taken.length = n) (rest : Bytes) :
    take n (taken ++ rest) = some (taken, rest) := take_eq_some.mpr ⟨rfl, h⟩

theorem u16_toBeBytes (h : n < 65536) : u16 (toBeBytes n ++ rest) = some (n, rest) :=
  u16_eq_some.mpr ⟨_, _, rfl, (fromBeBytes_toBeBytes h).symm⟩

theorem number_octets (h : value < 256 ^ n) : number n (octets n value ++ rest) = some (value, rest) := by
  unfold number
  rw [take_append (length_octets n value), map_some]
  exact congrArg (fun value => some (value, rest)) (ofOctets_octets h)

def vector8 (body : Bytes) : Bytes := UInt8.ofNat body.length :: body

def vector16 (body : Bytes) : Bytes := toBeBytes body.length ++ body

theorem vectorU8_vector8 (h : body.length < 256) (rest : Bytes) :
    vectorU8 (vector8 body ++ rest) = some (body, rest) := by
  have hlen : (UInt8.ofNat body.length).toNat = body.length := by
    rw [UInt8.toNat_ofNat']
    omega
  unfold vectorU8
  exact bind_eq_some_iff.mpr ⟨(_, body ++ rest), rfl, take_append hlen.symm rest⟩

theorem vectorU16_vector16 (h : body.length < 65536) (rest : Bytes) :
    vectorU16 (vector16 body ++ rest) = some (body, rest) := by
  unfold vectorU16 vector16
  exact bind_eq_some_iff.mpr ⟨(body.length, body ++ rest), u16_toBeBytes h, take_append rfl rest⟩

theorem rounds_flatMap {α : Type*} {read : Bytes → Option (α × Bytes)} {write : α → Bytes} (hempty : read [] = none) :
    ∀ (fuel : ℕ) (vs : List α), (∀ value ∈ vs, ∀ rest, read (write value ++ rest) = some (value, rest)) →
      vs.length ≤ fuel → rounds read fuel (vs.flatMap write) = vs
  | 0, [], _, _ => rfl
  | fuel + 1, [], _, _ => by
    rw [flatMap_nil, rounds, hempty]
  | fuel + 1, value :: vs, hread, hfuel => by
    rw [flatMap_cons, rounds, hread value mem_cons_self]
    dsimp only
    rw [rounds_flatMap hempty fuel vs (fun v hv => hread v (mem_cons_of_mem _ hv)) (Nat.le_of_succ_le_succ hfuel)]

theorem all_flatMap {read : Bytes → Option (α × Bytes)}
    (hempty : read [] = none) (hread : ∀ value ∈ values, ∀ rest, read (write value ++ rest) = some (value, rest)) :
    all read (values.flatMap write) = values := by
  refine rounds_flatMap hempty _ values hread ?_
  have hne : ∀ value ∈ values, 1 ≤ (write value).length := by
    intro value hvalue
    refine length_pos_of_ne_nil fun hnil => ?_
    have h := hread value hvalue []
    rw [hnil, nil_append, hempty] at h
    cases h
  simpa using card_nsmul_le_sum (values.map fun value => (write value).length) 1 (by simpa using hne)

end Reader

end Boreas
