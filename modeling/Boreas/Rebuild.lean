import Boreas.Reassembly

/-! # Rebuilt headers

What `rebuild` makes of the headers of a fragment: an IPv4 header with its total length, flags, offset and
checksum set anew (`Ipv4Rebuilt`), or an IPv6 header chain with the Next Header value spliced in and the
payload length set anew (`Ipv6Rebuilt`); the data follows unchanged (`rebuild_spec`). -/

namespace Boreas.L3

open Slices List

/-- `header` is the IPv4 header `orig` as the header of an unfragmented packet of `size` bytes. -/
structure Ipv4Rebuilt (orig header : Bytes) (size : ℕ) : Prop where
  length : header.length = orig.length
  totalLength : slice header 2 2 = toBeBytes size
  flags : header[6]? = orig[6]?.map (· &&& 0xc0)
  offset : header[7]? = some 0
  checksum : slice header 10 2 = toBeBytes (checksum [overwrite header 10 [0, 0]])
  rest : ∀ i, i ∉ [2, 3, 6, 7, 10, 11] → header[i]? = orig[i]?

/-- `header` is the IPv6 header chain `orig`, which the Fragment header followed, as the header of an
unfragmented packet of `size` bytes. -/
structure Ipv6Rebuilt (orig header : Bytes) (nextHeaderAt : ℕ) (protocol : UInt8) (size : ℕ) : Prop where
  length : header.length = orig.length
  payloadLength : slice header 4 2 = toBeBytes (size - ipv6HeaderBytes)
  nextHeader : header[nextHeaderAt]? = some protocol
  rest : ∀ i, i ∉ [4, 5, nextHeaderAt] → header[i]? = orig[i]?

def HeaderRebuilt (orig : Bytes) (nextHeaderAt : Option ℕ) (protocol : UInt8) (header : Bytes) (size : ℕ) : Prop :=
  match nextHeaderAt with
  | none => Ipv4Rebuilt orig header size
  | some nextHeaderAt => Ipv6Rebuilt orig header nextHeaderAt protocol size

/-! ### IPv4 -/

def ipv4Unsummed (orig : Bytes) (size : ℕ) : Bytes :=
  let header := overwrite orig 2 (toBeBytes size)
  let header := header.set 6 (header.getD 6 0 &&& 0xc0)
  overwrite (header.set 7 0) 10 [0, 0]

variable {orig : Bytes}

theorem length_ipv4Unsummed (h : 20 ≤ orig.length) (size : ℕ) : (ipv4Unsummed orig size).length = orig.length := by
  have h1 : (overwrite orig 2 (toBeBytes size)).length = orig.length :=
    length_overwrite (by rw [length_toBeBytes]; omega)
  unfold ipv4Unsummed
  rw [length_overwrite, length_set, length_set, h1]
  rw [length_set, length_set, h1]
  simp only [length_cons, length_nil]
  omega

theorem getElem?_ipv4Unsummed (h : 20 ≤ orig.length) (size i : ℕ) : (ipv4Unsummed orig size)[i]? =
      if 10 ≤ i ∧ i < 12 then [(0 : UInt8), 0][i - 10]? else if i = 7 then some 0
      else if i = 6 then orig[6]?.map (· &&& 0xc0) else if 2 ≤ i ∧ i < 4 then (toBeBytes size)[i - 2]?
      else orig[i]? := by
  have hfit : 2 + (toBeBytes size).length ≤ orig.length := by rw [length_toBeBytes]; omega
  have h1 : (overwrite orig 2 (toBeBytes size)).length = orig.length := length_overwrite hfit
  have h6 : (overwrite orig 2 (toBeBytes size))[6]? = orig[6]? := by
    rw [getElem?_overwrite hfit, if_neg (by rw [length_toBeBytes]; omega)]
  unfold ipv4Unsummed
  rw [getElem?_overwrite (by simp only [length_set, h1, length_cons, length_nil]; omega)]
  simp only [length_cons, length_nil, getElem?_set, length_set, h1, getD_eq_getElem?_getD,
    h6, getElem?_overwrite hfit, length_toBeBytes]
  by_cases ha : 10 ≤ i ∧ i < 12
  · simp [ha]
  by_cases hb : i = 7
  · subst hb
    simp
    omega
  by_cases hc : i = 6
  · subst hc
    have hlt : 6 < orig.length := by omega
    simp [hlt]
  · have hb' : ¬ 7 = i := fun h => hb h.symm
    have hc' : ¬ 6 = i := fun h => hc h.symm
    simp only [ha, hb, hc, hb', hc', if_false]
    rfl

variable {headers : Bytes}

theorem rebuildIpv4_append (h : HeadersRead headers none) (data : Bytes) : rebuildIpv4 (headers ++ data) =
      overwrite (ipv4Unsummed headers (headers ++ data).length) 10
        (toBeBytes (checksum [ipv4Unsummed headers (headers ++ data).length])) ++ data := by
  obtain ⟨h20, hihl⟩ := h
  have hlen := length_ipv4Unsummed h20 (headers ++ data).length
  -- Every write is inside the header.
  have hfit : 2 + (toBeBytes (headers ++ data).length).length ≤ headers.length := by
    rw [length_toBeBytes]; omega
  have h1 : (overwrite headers 2 (toBeBytes (headers ++ data).length)).length = headers.length :=
    length_overwrite hfit
  have hunsummed : ipv4Unsummed (headers ++ data) (headers ++ data).length =
      ipv4Unsummed headers (headers ++ data).length ++ data := by
    unfold ipv4Unsummed
    dsimp only
    rw [overwrite_append_left data hfit, getD_append _ _ _ _ (by omega),
      set_append_left _ _ (by omega), set_append_left _ _ (by rw [length_set]; omega),
      overwrite_append_left data (by simp only [length_set, h1, length_cons, length_nil]; omega)]
  have hhead : (ipv4Unsummed headers (headers ++ data).length ++ data).headD 0 = headers.headD 0 := by
    rw [headD_eq_head?_getD, headD_eq_head?_getD, head?_eq_getElem?, head?_eq_getElem?,
      getElem?_append_left (by omega), getElem?_ipv4Unsummed h20]
    simp
  have hrebuild : rebuildIpv4 (headers ++ data) =
      overwrite (ipv4Unsummed (headers ++ data) (headers ++ data).length) 10
        (toBeBytes (checksum [(ipv4Unsummed (headers ++ data) (headers ++ data).length).take
          (((ipv4Unsummed (headers ++ data) (headers ++ data).length).headD 0 &&& 0x0f).toNat * 4)])) := rfl
  rw [hrebuild, hunsummed, hhead, ← hihl, ← hlen, take_left]
  exact overwrite_append_left data (by rw [length_toBeBytes]; omega)

theorem ipv4Rebuilt_spec (h : 20 ≤ orig.length) (size : ℕ) :
    Ipv4Rebuilt orig (overwrite (ipv4Unsummed orig size) 10 (toBeBytes (checksum [ipv4Unsummed orig size]))) size := by
  have hlen := length_ipv4Unsummed h size
  have hfit : ∀ n, 10 + (toBeBytes n).length ≤ (ipv4Unsummed orig size).length := by
    intro n
    rw [length_toBeBytes]
    omega
  refine ⟨?_, ?_, ?_, ?_, ?_, ?_⟩
  · rw [length_overwrite (hfit _), hlen]
  · rw [slice_overwrite_of_disjoint (hfit _) (.inl (by decide))]
    apply ext_getElem?
    intro j
    rw [getElem?_slice, getElem?_ipv4Unsummed h]
    by_cases hj : j < 2
    · have h1 : ¬ (10 ≤ 2 + j ∧ 2 + j < 12) := by omega
      have h2 : 2 + j ≠ 7 := by omega
      have h3 : 2 + j ≠ 6 := by omega
      have h4 : 2 ≤ 2 + j ∧ 2 + j < 4 := by omega
      rw [if_pos hj, if_neg h1, if_neg h2, if_neg h3, if_pos h4]
      congr 1
      omega
    · rw [if_neg hj, getElem?_eq_none (by rw [length_toBeBytes]; omega)]
  · rw [getElem?_overwrite (hfit _), getElem?_ipv4Unsummed h]
    simp
  · rw [getElem?_overwrite (hfit _), getElem?_ipv4Unsummed h]
    simp
  · have htwice := overwrite_overwrite (hfit (checksum [ipv4Unsummed orig size])) (show [0, 0].length = 2 from rfl)
    have hzero : overwrite (ipv4Unsummed orig size) 10 [0, 0] = ipv4Unsummed orig size := by
      apply ext_getElem?
      intro j
      rw [getElem?_overwrite (by simp only [length_cons, length_nil]; omega), getElem?_ipv4Unsummed h]
      simp only [length_cons, length_nil]
      split_ifs with h1 <;> rfl
    rw [htwice, hzero]
    exact slice_overwrite (hfit _)
  · intro i hi
    simp only [mem_cons, not_mem_nil, or_false, not_or] at hi
    rw [getElem?_overwrite (hfit _), getElem?_ipv4Unsummed h, length_toBeBytes,
      if_neg (by omega), if_neg (by omega), if_neg (by omega), if_neg (by omega), if_neg (by omega)]

/-! ### IPv6 -/

theorem rebuildIpv6_append (h : HeadersRead headers (some n)) (protocol : UInt8)
    (data : Bytes) : rebuildIpv6 (headers ++ data) n protocol =
      overwrite (headers.set n protocol) 4 (toBeBytes ((headers ++ data).length - ipv6HeaderBytes)) ++ data := by
  obtain ⟨h40, hlt, -⟩ := h
  unfold ipv6HeaderBytes at h40
  unfold rebuildIpv6
  rw [set_append_left _ _ hlt]
  exact overwrite_append_left data (by rw [length_set, length_toBeBytes]; omega)

theorem ipv6Rebuilt_spec (h : HeadersRead orig (some n)) (protocol : UInt8) (size : ℕ) :
    Ipv6Rebuilt orig (overwrite (orig.set n protocol) 4 (toBeBytes (size - ipv6HeaderBytes))) n protocol size := by
  obtain ⟨h40, hlt, hn⟩ := h
  unfold ipv6HeaderBytes at h40 hn
  have hfit : 4 + (toBeBytes (size - ipv6HeaderBytes)).length ≤ (orig.set n protocol).length := by
    rw [length_set, length_toBeBytes]
    omega
  refine ⟨?_, slice_overwrite hfit, ?_, fun i hi => ?_⟩
  · rw [length_overwrite hfit, length_set]
  · rw [getElem?_overwrite hfit, length_toBeBytes, if_neg (by omega), getElem?_set_self hlt]
  · simp only [mem_cons, not_mem_nil, or_false, not_or] at hi
    rw [getElem?_overwrite hfit, length_toBeBytes, if_neg (by omega), getElem?_set_ne (fun h => hi.2.2 h.symm)]

/-! ### Both families -/

/-- **A rebuilt packet** is a rebuilt header and the data. -/
theorem rebuild_spec (h : HeadersRead headers nextHeaderAt)
    (hp : rebuild headers nextHeaderAt protocol data = some pkt) : ∃ header, pkt = header ++ data ∧
      HeaderRebuilt headers nextHeaderAt protocol header pkt.length := by
  cases nextHeaderAt with
  | none =>
    simp only [rebuild] at hp
    split_ifs at hp
    cases hp
    have heq := rebuildIpv4_append h data
    have hspec := ipv4Rebuilt_spec h.1 (headers ++ data).length
    refine ⟨_, heq, ?_⟩
    have hlen : (rebuildIpv4 (headers ++ data)).length = (headers ++ data).length := by
      rw [heq, length_append, hspec.length, length_append]
    rw [hlen]
    exact hspec
  | some n =>
    simp only [rebuild] at hp
    split_ifs at hp
    cases hp
    have heq := rebuildIpv6_append h protocol data
    have hspec := ipv6Rebuilt_spec h protocol (headers ++ data).length
    refine ⟨_, heq, ?_⟩
    have hlen : (rebuildIpv6 (headers ++ data) n protocol).length = (headers ++ data).length := by
      rw [heq, length_append, hspec.length, length_append]
    rw [hlen]
    exact hspec

end Boreas.L3
