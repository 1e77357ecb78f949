import Boreas.Slices

/-! # Bytes on the wire

The byte alphabet shared by the packet and message modules: bytes, big-endian words, IP addresses, and the
Internet checksum. -/

namespace Boreas

open List Slices UInt8

theorem bind_eq_ok {f : α → Except ε β} : x >>= f = .ok b ↔ ∃ a, x = .ok a ∧ f a = .ok b := by
  cases x with
  | ok a =>
    constructor
    · exact fun h => ⟨a, rfl, h⟩
    · rintro ⟨a', ha, h⟩
      cases ha
      exact h
  | error e =>
    constructor
    · intro h
      cases h
    · rintro ⟨a', ha, -⟩
      cases ha

abbrev Bytes := List UInt8

def toBeBytes (n : ℕ) : Bytes := [ofNat (n / 256), ofNat n]

def fromBeBytes (high low : UInt8) : ℕ := high.toNat * 256 + low.toNat

@[simp] theorem length_toBeBytes (n : ℕ) : (toBeBytes n).length = 2 := rfl

def octets : ℕ → ℕ → Bytes
  | 0, _ => []
  | n + 1, value => octets n (value / 256) ++ [ofNat value]

def ofOctets (bytes : Bytes) : ℕ := bytes.foldl (fun acc b => acc * 256 + b.toNat) 0

@[simp] theorem length_octets : ∀ n value, (octets n value).length = n
  | 0, _ => rfl
  | n + 1, value => by rw [octets, length_append, length_octets n, length_singleton]

theorem ofOctets_octets : ∀ {n value : ℕ}, value < 256 ^ n → ofOctets (octets n value) = value
  | 0, value, h => by
    have : value = 0 := by simpa using h
    rw [this]
    rfl
  | n + 1, value, h => by
    have hdiv : value / 256 < 256 ^ n := Nat.div_lt_of_lt_mul (by rw [pow_succ] at h; omega)
    have ih := ofOctets_octets hdiv
    unfold ofOctets at ih ⊢
    rw [octets, foldl_append, ih, foldl_cons, foldl_nil, toNat_ofNat']
    omega

inductive IpAddr
  | v4 (address : BitVec 32)
  | v6 (address : BitVec 128)
deriving DecidableEq, Repr

theorem toBeBytes_fromBeBytes : toBeBytes (fromBeBytes high low) = [high, low] := by
  have hlow := low.toNat_lt
  unfold toBeBytes fromBeBytes
  have hdiv : (high.toNat * 256 + low.toNat) / 256 = high.toNat := by omega
  have hmod : (high.toNat * 256 + low.toNat) % 256 = low.toNat := by omega
  rw [hdiv, UInt8.ofNat_toNat]
  congr 2
  exact UInt8.toNat_inj.mp (by rw [UInt8.toNat_ofNat', hmod])

theorem fromBeBytes_toBeBytes (h : n < 65536) : fromBeBytes (ofNat (n / 256)) (ofNat n) = n := by
  unfold fromBeBytes
  rw [toNat_ofNat', toNat_ofNat']
  omega

def lower (b : UInt8) : UInt8 := if 65 ≤ b ∧ b ≤ 90 then b + 32 else b

theorem lower_lower : lower (lower b) = lower b := by
  unfold lower
  split_ifs with h h'
  · have h1 := le_iff_toNat_le.mp h.1
    have h2 := le_iff_toNat_le.mp h.2
    have h3 := le_iff_toNat_le.mp h'.2
    simp at h1 h2 h3
    omega
  · rfl
  · rfl

/-! ### Reading -/

def u16At (bytes : Bytes) (at_ : ℕ) : Option ℕ := do
  let high ← bytes[at_]?
  let low ← bytes[at_ + 1]?
  return fromBeBytes high low

def u32At (bytes : Bytes) (at_ : ℕ) : Option ℕ := do
  let high ← u16At bytes at_
  let low ← u16At bytes (at_ + 2)
  return high * 65536 + low

def takeAt (bytes : Bytes) (at_ length : ℕ) : Option Bytes :=
  if at_ + length ≤ bytes.length then some (slice bytes at_ length) else none

theorem u16At_of_stands (h : Stands bytes at_ (toBeBytes n)) (hn : n < 65536) : u16At bytes at_ = some n := by
  unfold toBeBytes at h
  rw [stands_cons, stands_cons] at h
  simp [u16At, h.1, h.2.1, fromBeBytes_toBeBytes hn]

def toBeBytes32 (n : ℕ) : Bytes := toBeBytes (n / 65536) ++ toBeBytes (n % 65536)

@[simp] theorem length_toBeBytes32 : (toBeBytes32 n).length = 4 := rfl

theorem u32At_of_stands (h : Stands bytes at_ (toBeBytes32 n)) (hn : n < 4294967296) : u32At bytes at_ = some n := by
  unfold toBeBytes32 at h
  rw [stands_append, length_toBeBytes] at h
  simp only [u32At, u16At_of_stands h.1 (by omega), u16At_of_stands h.2 (by omega), Option.pure_def,
    Option.bind_eq_bind, Option.bind_some]
  congr 1
  omega

theorem takeAt_of_stands (h : Stands bytes at_ ys) (hle : at_ + ys.length ≤ bytes.length) :
    takeAt bytes at_ ys.length = some ys := by
  unfold takeAt
  rw [if_pos hle, h.slice_eq]

/-! ### Writing into a buffer of fixed size -/

/-- `Bounded`: a write that does not fit sets `overflowed` and writes nothing. -/
structure Bounded where
  out : Bytes
  at_ : ℕ
  overflowed : Bool

namespace Bounded

def start (out : Bytes) (at_ : ℕ) : Option Bounded := if at_ ≤ out.length then some ⟨out, at_, false⟩ else none

variable (b : Bounded)

def finish : Option (Bytes × ℕ) := if b.overflowed then none else some (b.out, b.at_)

def bytes (value : Bytes) : Bounded :=
  if b.at_ + value.length ≤ b.out.length ∧ b.overflowed = false then
    { b with out := overwrite b.out b.at_ value, at_ := b.at_ + value.length }
  else { b with overflowed := true }

def u8 (value : UInt8) : Bounded := b.bytes [value]

def u16 (value : ℕ) : Bounded := b.bytes (toBeBytes value)

def u32 (value : ℕ) : Bounded := b.bytes (toBeBytes32 value)

def zeros (count : ℕ) : Bounded := b.bytes (List.replicate count 0)

def vectorU8 (value : Bytes) : Bounded := (b.u8 (ofNat value.length)).bytes value

def writeAll (values : List Bytes) : Bounded := values.foldl bytes b

theorem writeAll_overflowed {b : Bounded} (h : b.overflowed = true) : ∀ vs, (b.writeAll vs).overflowed = true := by
  intro vs
  induction vs generalizing b with
  | nil => exact h
  | cons v vs ih =>
    apply ih
    simp [bytes, h]

/-- **A finished chain wrote all of its values one after the other.** -/
theorem writeAll_finish {b : Bounded} {out : Bytes} (hb : b.at_ ≤ b.out.length)
    (h : (b.writeAll values).finish = some (out, stop)) :
    out = overwrite b.out b.at_ values.flatten ∧ stop = b.at_ + values.flatten.length ∧ stop ≤ b.out.length := by
  induction values generalizing b with
  | nil =>
    have h' : b.finish = some (out, stop) := h
    unfold finish at h'
    split_ifs at h'
    cases h'
    simp [overwrite, hb]
  | cons v values ih =>
    have hstep : (b.writeAll (v :: values)) = (b.bytes v).writeAll values := rfl
    rw [hstep] at h
    by_cases hfits : b.at_ + v.length ≤ b.out.length ∧ b.overflowed = false
    · have hbytes : b.bytes v = { b with out := overwrite b.out b.at_ v, at_ := b.at_ + v.length } := by
        rw [bytes, if_pos hfits]
      rw [hbytes] at h
      have hlen : (overwrite b.out b.at_ v).length = b.out.length := length_overwrite hfits.1
      obtain ⟨h1, h2, h3⟩ := ih (by dsimp only; omega) h
      dsimp only at h1 h2 h3
      rw [flatten_cons, length_append]
      refine ⟨?_, by omega, by omega⟩
      rw [h1]
      exact overwrite_consecutive (by omega)
    · have hover : (b.bytes v).overflowed = true := by rw [bytes, if_neg hfits]
      have := writeAll_overflowed hover values
      simp [finish, this] at h

end Bounded

/-! ### The Internet checksum -/

def wordSum : Bytes → ℕ
  | [] => 0
  | [high] => fromBeBytes high 0
  | high :: low :: rest => fromBeBytes high low + wordSum rest

def foldCarries : ℕ → ℕ → ℕ
  | 0, sum => sum
  | fuel + 1, sum => if sum / 65536 = 0 then sum else foldCarries fuel (sum % 65536 + sum / 65536)

variable (parts : List Bytes)

def checksum : ℕ :=
  let sum := wordSum parts.flatten
  65535 - foldCarries sum sum

theorem foldCarries_lt : ∀ {fuel sum : ℕ}, sum ≤ fuel + 65535 → foldCarries fuel sum < 65536
  | 0, sum, h => by simp only [foldCarries]; omega
  | fuel + 1, sum, h => by
    simp only [foldCarries]
    split_ifs with h0
    · omega
    · exact foldCarries_lt (by omega)

theorem foldCarries_mod : ∀ {fuel sum : ℕ}, foldCarries fuel sum % 65535 = sum % 65535 ∧
    (0 < sum → 0 < foldCarries fuel sum)
  | 0, sum => ⟨rfl, id⟩
  | fuel + 1, sum => by
    simp only [foldCarries]
    split_ifs with h0
    · exact ⟨rfl, id⟩
    · obtain ⟨hmod, hpos⟩ := @foldCarries_mod fuel (sum % 65536 + sum / 65536)
      exact ⟨by omega, fun _ => hpos (by omega)⟩

theorem checksum_lt : checksum parts < 65536 := by
  unfold checksum
  dsimp only
  omega

theorem checksum_append (bytes : Bytes) : checksum (parts ++ [bytes]) = checksum [parts.flatten ++ bytes] := by
  simp only [checksum, flatten_append, flatten_singleton]

theorem wordSum_append : ∀ {xs : Bytes} (ys : Bytes), xs.length % 2 = 0 → wordSum (xs ++ ys) = wordSum xs + wordSum ys
  | [], ys, _ => by simp [wordSum]
  | [_], _, h => by simp at h
  | high :: low :: rest, ys, h => by
    have hrest : rest.length % 2 = 0 := by
      simp only [length_cons] at h
      omega
    simp only [cons_append, wordSum, wordSum_append ys hrest]
    omega

theorem wordSum_toBeBytes (h : c < 65536) : wordSum (toBeBytes c) = c := by
  simp only [toBeBytes, wordSum, Nat.add_zero]
  exact fromBeBytes_toBeBytes h

/-- RFC 768's escape for a computed zero: wire zero means that no checksum was computed. -/
def transmittedChecksum (sum : ℕ) : ℕ := if sum = 0 then 65535 else sum

theorem wordSum_field {xs : Bytes} (ys : Bytes) {c : ℕ} (hxs : xs.length % 2 = 0) (hc : c < 65536) :
    wordSum (xs ++ toBeBytes c ++ ys) = wordSum (xs ++ toBeBytes 0 ++ ys) + c := by
  have heven : ∀ n, (toBeBytes n).length % 2 = 0 := fun n => by simp
  rw [append_assoc, append_assoc, wordSum_append _ hxs, wordSum_append _ hxs, wordSum_append _ (heven c),
    wordSum_append _ (heven 0), wordSum_toBeBytes hc, wordSum_toBeBytes (by decide)]
  omega

/-- **A field that holds the checksum of the rest verifies**, as does the escape for zero. -/
theorem checksum_field (hxs : xs.length % 2 = 0) (hpos : 0 < wordSum (xs ++ toBeBytes 0 ++ ys))
    (hc : c = checksum [xs ++ toBeBytes 0 ++ ys] ∨ c = transmittedChecksum (checksum [xs ++ toBeBytes 0 ++ ys])) :
    checksum [xs ++ toBeBytes c ++ ys] = 0 := by
  have hlt : checksum [xs ++ toBeBytes 0 ++ ys] < 65536 := checksum_lt _
  have hfield := @wordSum_field xs ys c hxs (by unfold transmittedChecksum at hc; split_ifs at hc <;> omega)
  unfold transmittedChecksum at hc
  unfold checksum at hc ⊢
  simp only [flatten_singleton] at hc ⊢
  rw [hfield]
  generalize wordSum (xs ++ toBeBytes 0 ++ ys) = sum at hpos hc
  have hmod := (@foldCarries_mod sum sum).1
  have hmod' := (@foldCarries_mod (sum + c) (sum + c)).1
  have hge' := (@foldCarries_mod (sum + c) (sum + c)).2 (by omega)
  have hle : foldCarries sum sum < 65536 := foldCarries_lt (by omega)
  split_ifs at hc <;> omega

end Boreas
