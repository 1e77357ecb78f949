import Boreas.Packet

/-! # Sums that verify

The sum of wire.rs in `u32`, for input cut in any way (`checksum_cut`), and the checksum that `spendHop` updates in
place (`spendHop_keeps`).  Both rest on `onesSum_eq`: the one's-complement sum is all ones exactly for the non-zero
multiples of 65535. -/

namespace Boreas

open List

def onesSum (bytes : Bytes) : ℕ := foldCarries (wordSum bytes) (wordSum bytes)

theorem onesSum_eq : onesSum bytes = 65535 ↔ 65535 ∣ wordSum bytes ∧ 0 < wordSum bytes := by
  unfold onesSum
  generalize wordSum bytes = sum
  rcases Nat.eq_zero_or_pos sum with rfl | hsum
  · simp [foldCarries]
  · obtain ⟨hmod, hpos⟩ := @foldCarries_mod sum sum
    have hlt : foldCarries sum sum < 65536 := foldCarries_lt (by omega)
    have := hpos hsum
    omega

/-! ### Any cut of the input -/

/-- The loop of `checksum` over the bytes of its parts, or nothing where an addition leaves `u32`. -/
def sumU32 : ℕ → Bytes → Option ℕ
  | sum, [] => some sum
  | sum, [high] => if sum + fromBeBytes high 0 < 2 ^ 32 then some (sum + fromBeBytes high 0) else none
  | sum, high :: low :: rest =>
    if sum + fromBeBytes high low < 2 ^ 32 then sumU32 (sum + fromBeBytes high low) rest else none

def checksumU32 (parts : List Bytes) : Option ℕ :=
  (sumU32 0 parts.flatten).map fun sum => 65535 - foldCarries sum sum

theorem sumU32_eq : ∀ {sum : ℕ} {bytes : Bytes}, sum + wordSum bytes < 2 ^ 32 →
    sumU32 sum bytes = some (sum + wordSum bytes)
  | sum, [], _ => rfl
  | sum, [high], h => if_pos h
  | sum, high :: low :: rest, h => by
    unfold wordSum at h ⊢
    rw [sumU32, if_pos (by omega), sumU32_eq (by omega), Nat.add_assoc]

theorem wordSum_le : ∀ bytes : Bytes, 2 * wordSum bytes ≤ 65535 * (bytes.length + 1)
  | [] => by simp [wordSum]
  | [high] => by
    have := high.toNat_lt
    simp only [wordSum, fromBeBytes, UInt8.toNat_zero, length_singleton]
    omega
  | high :: low :: rest => by
    have := high.toNat_lt
    have := low.toNat_lt
    have := wordSum_le rest
    simp only [wordSum, fromBeBytes, length_cons]
    omega

/-- **The checksum is that of the whole string**, however it is cut, and it verifies where it is written. -/
theorem checksum_cut (bytes : Bytes) (h : bytes.length ≤ 65535 + 40) :
    (∀ parts : List Bytes, parts.flatten = bytes → checksumU32 parts = some (checksum [bytes])) ∧
      ∀ xs ys, bytes = xs ++ toBeBytes 0 ++ ys → xs.length % 2 = 0 →
        onesSum (xs ++ toBeBytes (checksum [bytes]) ++ ys) = 65535 := by
  constructor
  · rintro parts rfl
    have := wordSum_le parts.flatten
    rw [checksumU32, sumU32_eq (by omega), Nat.zero_add, checksum, flatten_singleton]
    rfl
  · intro xs ys hbytes heven
    have hlt := checksum_lt [bytes]
    rw [onesSum_eq, wordSum_field ys heven hlt, ← hbytes]
    obtain ⟨hmod, hpos⟩ := @foldCarries_mod (wordSum bytes) (wordSum bytes)
    have hfold : foldCarries (wordSum bytes) (wordSum bytes) < 65536 := foldCarries_lt (by omega)
    unfold checksum
    simp only [flatten_singleton]
    have hzero : wordSum bytes = 0 → foldCarries (wordSum bytes) (wordSum bytes) = 0 := fun h0 => by
      rw [h0]
      rfl
    omega

theorem checksum_cut_thrice : checksumU32 [[1], [], [2, 0, 0, 7]] = some (checksum [[1, 2, 0, 0, 7]]) :=
  (checksum_cut [1, 2, 0, 0, 7] (by decide)).1 _ rfl

/-! ### Spending a hop -/

/-- The IPv4 header of a packet, by the length it declares. -/
def ipv4HeaderOf (packet : Bytes) : Bytes := packet.take (4 * ((packet.headD 0).toNat % 16))

structure ValidIpv4 (packet : Bytes) : Prop where
  version : packet.headD 0 >>> 4 = 4
  long : 20 ≤ (ipv4HeaderOf packet).length
  sum : onesSum (ipv4HeaderOf packet) = 65535

/-- One hop less, and nothing else but the check has changed. -/
structure Spent (packet : Bytes) (spent : Bytes × Option ℕ) : Prop where
  left : spent.2 = some ((packet.getD 8 0).toNat - 1)
  valid : ValidIpv4 spent.1
  hops : spent.1[8]? = some (UInt8.ofNat ((packet.getD 8 0).toNat - 1))
  frame : ∀ i, i ≠ 8 → i ≠ 10 → i ≠ 11 → spent.1[i]? = packet[i]?

def Ipv6Header (packet : Bytes) : Prop := packet.headD 0 >>> 4 = 6 ∧ 40 ≤ packet.length

/-- The word of TTL and protocol falls by 0x0100, and the check rises by it, carried end around. -/
theorem carried_around (hhops : 1 < hops) (hcheck : check < 65536)
    (h : 65535 ∣ front + (hops * 256 + protocol) + check + back) :
    (check + 0x0100) % 65536 + (check + 0x0100) / 65536 < 65536 ∧
      65535 ∣ front + ((hops - 1) * 256 + protocol) + ((check + 0x0100) % 65536 + (check + 0x0100) / 65536) + back := by
  omega

theorem spendHop_ipv4 (h : ValidIpv4 packet) (hhops : 1 < (packet.getD 8 0).toNat) :
    Spent packet (spendHop packet) := by
  obtain ⟨hversion, hlong, hsum⟩ := h
  have hlen : 20 ≤ packet.length := hlong.trans (length_take_le' _ _)
  rcases packet with _ | ⟨b0, _ | ⟨b1, _ | ⟨b2, _ | ⟨b3, _ | ⟨b4, _ | ⟨b5, _ | ⟨b6, _ | ⟨b7, _ | ⟨b8, _ | ⟨b9, _ |
    ⟨b10, _ | ⟨b11, rest⟩⟩⟩⟩⟩⟩⟩⟩⟩⟩⟩⟩
  iterate 12 · simp at hlen
  have hb8 : 1 < b8.toNat := hhops
  have hspent : spendHop (b0 :: b1 :: b2 :: b3 :: b4 :: b5 :: b6 :: b7 :: b8 :: b9 :: b10 :: b11 :: rest) =
      (b0 :: b1 :: b2 :: b3 :: b4 :: b5 :: b6 :: b7 :: UInt8.ofNat (b8.toNat - 1) :: b9 :: (toBeBytes
        ((fromBeBytes b10 b11 + 0x0100) % 65536 + (fromBeBytes b10 b11 + 0x0100) / 65536) ++ rest),
        some (b8.toNat - 1)) :=
    (if_pos ⟨hversion, hlen⟩).trans (if_neg (show ¬ b8.toNat - 1 = 0 by omega))
  have hlong' := hlong
  rw [ipv4HeaderOf, headD_cons, length_take] at hlong'
  obtain ⟨n, hn⟩ : ∃ n, 4 * (b0.toNat % 16) = n + 12 := Nat.exists_eq_add_of_le' (Nat.le_of_lt (by omega))
  -- What the header adds up to, whatever stands in the three bytes that change.
  have hheader : ∀ b8 b10 b11, wordSum (ipv4HeaderOf
      (b0 :: b1 :: b2 :: b3 :: b4 :: b5 :: b6 :: b7 :: b8 :: b9 :: b10 :: b11 :: rest)) =
        wordSum [b0, b1, b2, b3, b4, b5, b6, b7] + fromBeBytes b8 b9 + fromBeBytes b10 b11 + wordSum (rest.take n) := by
    intro b8 b10 b11
    rw [ipv4HeaderOf, headD_cons, hn]
    simp only [take_succ_cons, wordSum]
    omega
  rw [hspent]
  refine ⟨rfl, ⟨hversion, by simp [ipv4HeaderOf] at hlong ⊢; omega, ?_⟩, rfl, fun i h8 h10 h11 => ?_⟩
  · have hless : (UInt8.ofNat (b8.toNat - 1)).toNat = b8.toNat - 1 :=
      UInt8.toNat_ofNat_of_lt' ((Nat.sub_le _ _).trans_lt b8.toNat_lt)
    have hword : fromBeBytes b10 b11 < 65536 := by
      have := b10.toNat_lt
      have := b11.toNat_lt
      unfold fromBeBytes
      omega
    rw [onesSum_eq, hheader, fromBeBytes] at hsum
    obtain ⟨hless65536, hdvd⟩ := carried_around hb8 hword hsum.1
    rw [onesSum_eq, toBeBytes, cons_append, cons_append, nil_append, hheader, fromBeBytes_toBeBytes hless65536, fromBeBytes,
      hless]
    exact ⟨hdvd, by omega⟩
  · rcases Nat.lt_or_ge i 12 with hlow | hhigh
    · interval_cases i <;> first | rfl | omega
    · obtain ⟨k, rfl⟩ := Nat.exists_eq_add_of_le' hhigh
      rfl

theorem spendHop_ipv6 {packet : Bytes} (h : Ipv6Header packet) : spendHop packet =
    (if 0 < (packet.getD 7 0).toNat - 1 then packet.set 7 (UInt8.ofNat ((packet.getD 7 0).toNat - 1)) else packet,
      some ((packet.getD 7 0).toNat - 1)) := by
  match packet, h with
  | b0 :: tail, ⟨hversion, hlen⟩ =>
    have hother : ¬ (b0 >>> 4 = 4 ∧ 20 ≤ (b0 :: tail).length) := fun h => absurd (h.1.symm.trans hversion) (by decide)
    exact (if_neg hother).trans (if_pos ⟨hversion, hlen⟩)

/-- **Spending a hop keeps the header valid**, and changes nothing else. -/
theorem spendHop_keeps (packet : Bytes) :
    (ValidIpv4 packet → 1 < (packet.getD 8 0).toNat → Spent packet (spendHop packet)) ∧
      (Ipv6Header packet → 1 < (packet.getD 7 0).toNat → spendHop packet =
        (packet.set 7 (UInt8.ofNat ((packet.getD 7 0).toNat - 1)), some ((packet.getD 7 0).toNat - 1))) ∧
      (ValidIpv4 packet ∧ (packet.getD 8 0).toNat ≤ 1 ∨ Ipv6Header packet ∧ (packet.getD 7 0).toNat ≤ 1 →
        spendHop packet = (packet, some 0)) := by
  refine ⟨spendHop_ipv4, fun h hhops => ?_, ?_⟩
  · rw [spendHop_ipv6 h, if_pos (by omega)]
  · rintro (⟨h, hspent⟩ | ⟨h, hspent⟩)
    · match packet, h with
      | b0 :: tail, ⟨hversion, hlong, _⟩ =>
        have hlen : 20 ≤ (b0 :: tail).length := hlong.trans (length_take_le' _ _)
        exact (if_pos ⟨hversion, hlen⟩).trans (if_pos (by omega))
    · rw [spendHop_ipv6 h, if_neg (by omega), Nat.sub_eq_zero_of_le hspent]

end Boreas
