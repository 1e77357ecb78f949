import Boreas.Plan
import Boreas.Reader

/-! # Clamping the MSS of a SYN

`clamp_mss` of l3/path.rs: the first MSS option of a TCP SYN, when it is above what the inner MTU leaves, is written
down to it, and the TCP checksum is computed anew.  Nothing else changes (`clampMss_changes`).  That the option is found
again rests on `rounds_spec`: the walk over the options meets it whatever its value is. -/

namespace Boreas.L3

open List Reader Slices

def optionEnd : UInt8 := 0

def optionNoop : UInt8 := 1

def optionMss : UInt8 := 2

def flagSyn : UInt8 := 0x02

structure TcpOption where
  kind : UInt8
  at_ : ℕ
  value : Bytes
deriving DecidableEq, Repr

def tcpOption (total : ℕ) : Bytes → Option (TcpOption × Bytes)
  | [] => none
  | kind :: rest =>
    if kind = optionEnd then none
    else if kind = optionNoop then tcpOption total rest
    else
      match Reader.u8 rest with
      | none => none
      | some (length, rest) =>
        if length.toNat < 2 then none
        else
          match Reader.take (length.toNat - 2) rest with
          | none => none
          | some (value, rest') => some (⟨kind, 20 + (total - rest.length), value⟩, rest')

def tcpOptions (segment : Bytes) : List TcpOption :=
  let headerLen := (segment.getD 12 0 >>> 4).toNat * 4
  let options := if 20 ≤ headerLen ∧ headerLen ≤ segment.length then slice segment 20 (headerLen - 20) else []
  all (tcpOption options.length) options

def mssAbove (segment : Bytes) (clamp : ℕ) : Option ℕ :=
  match segment[13]? with
  | none => none
  | some flags =>
    if flags &&& flagSyn = 0 then none
    else
      match (tcpOptions segment).find? (fun option => option.kind = optionMss) with
      | none => none
      | some mss =>
        match u16 mss.value with
        | none => none
        | some (advertised, _) => if clamp < advertised then some mss.at_ else none

variable (packet : Bytes)

/-- The packet with the option rewritten, and the checksum of the segment from `start` to `total` over the pseudo
header of `pseudo`. -/
def rewriteMss (start total mssAt clamp : ℕ) (pseudo : List Bytes) : Bytes :=
  let packet := overwrite packet mssAt (toBeBytes clamp)
  let packet := overwrite packet (start + 16) [0, 0]
  overwrite packet (start + 16) (toBeBytes (checksum (pseudo ++ [slice packet start (total - start)])))

def clampIpv4 (clamp : ℕ) : Bytes × Bool :=
  let ihl := (packet.headD 0 &&& 0x0f).toNat * 4
  if ihl < 20 ∨ packet.length < ihl + 20 ∨ packet.getD 9 0 ≠ 6 then (packet, false)
  else
    let total := fromBeBytes (packet.getD 2 0) (packet.getD 3 0)
    if packet.length < total ∨ total < ihl + 20 then (packet, false)
    else
      match mssAbove (slice packet ihl (total - ihl)) clamp with
      | none => (packet, false)
      | some at_ =>
        (rewriteMss packet ihl total (ihl + at_) clamp
          [slice packet 12 4, slice packet 16 4, [0, 6], toBeBytes (total - ihl)], true)

def clampIpv6 (clamp : ℕ) : Bytes × Bool :=
  if packet.length < 60 ∨ packet.getD 6 0 ≠ 6 then (packet, false)
  else
    let payloadLen := fromBeBytes (packet.getD 4 0) (packet.getD 5 0)
    let total := 40 + payloadLen
    if packet.length < total then (packet, false)
    else
      match mssAbove (slice packet 40 payloadLen) clamp with
      | none => (packet, false)
      | some at_ =>
        (rewriteMss packet 40 total (40 + at_) clamp
          [slice packet 8 16, slice packet 24 16, toBeBytes32 payloadLen, [0, 0, 0, 6]], true)

def clampMss (innerMtu : Mtu) : Bytes × Bool :=
  match packet.head? with
  | none => (packet, false)
  | some version =>
    if version >>> 4 = 4 then clampIpv4 packet (innerMtu.bytes - 40)
    else if version >>> 4 = 6 then clampIpv6 packet (innerMtu.bytes - 60)
    else (packet, false)

/-! ### The walk over the options -/

variable {option mss : TcpOption} {bytes rest seg packet : Bytes} {total : ℕ}

theorem tcpOption_spec (hle : bytes.length ≤ total) (h : tcpOption total bytes = some (option, rest)) :
    ∃ pre, bytes = pre ++ (option.value ++ rest) ∧ option.at_ = 20 + (total - bytes.length) + pre.length ∧
      ∀ value' rest' : Bytes, value'.length = option.value.length → rest'.length = rest.length →
        tcpOption total (pre ++ (value' ++ rest')) = some ({ option with value := value' }, rest') := by
  induction bytes with
  | nil => cases h
  | cons kind tail ih =>
    rw [length_cons] at hle
    unfold tcpOption at h
    split_ifs at h with hend hnoop
    · obtain ⟨pre, rfl, hat, hany⟩ := ih (by omega) h
      refine ⟨kind :: pre, rfl, ?_, fun value' rest' hvalue hrest => ?_⟩
      · rw [hat, length_cons, length_cons]
        omega
      · rw [cons_append, tcpOption, if_neg hend, if_pos hnoop]
        exact hany value' rest' hvalue hrest
    · rcases hlength : Reader.u8 tail with _ | ⟨length, after⟩
      · simp [hlength] at h
      obtain rfl := Reader.u8_eq_some.mp hlength
      simp only [hlength] at h
      split_ifs at h with hshort
      rcases hvalue : Reader.take (length.toNat - 2) after with _ | ⟨value, rest⟩
      · simp [hvalue] at h
      obtain ⟨rfl, hlen⟩ := Reader.take_eq_some.mp hvalue
      simp only [hvalue, Option.some.injEq, Prod.mk.injEq] at h
      obtain ⟨rfl, rfl⟩ := h
      simp only [length_cons, length_append] at hle
      refine ⟨[kind, length], rfl, ?_, fun value' rest' hvalue' hrest' => ?_⟩
      · simp only [length_cons, length_append, length_nil]
        omega
      · have htake := Reader.take_append (hvalue'.trans hlen) rest'
        simp [tcpOption, hend, hnoop, Reader.u8, hshort, htake, hvalue', hrest']

theorem rounds_spec (hle : bytes.length ≤ total)
    (h : (rounds (tcpOption total) fuel bytes).find? (fun option => option.kind = optionMss) = some mss) :
    ∃ pre post, bytes = pre ++ (mss.value ++ post) ∧ mss.at_ = 20 + (total - bytes.length) + pre.length ∧
      ∀ value' : Bytes, value'.length = mss.value.length → (rounds (tcpOption total) fuel (pre ++ (value' ++ post))).find?
        (fun option => option.kind = optionMss) = some { mss with value := value' } := by
  induction fuel generalizing bytes with
  | zero => cases h
  | succ fuel ih =>
    rw [rounds] at h
    rcases hread : tcpOption total bytes with _ | ⟨option, rest⟩
    · simp [hread] at h
    obtain ⟨pre, rfl, hat, hany⟩ := tcpOption_spec hle hread
    rw [hread] at h
    by_cases hkind : option.kind = optionMss
    · obtain rfl : option = mss := by simpa [hkind] using h
      refine ⟨pre, rest, rfl, hat, fun value' hvalue => ?_⟩
      rw [rounds, hany value' rest hvalue rfl]
      simp [hkind]
    · rw [length_append, length_append] at hle
      have hrest : rest.length ≤ total := by omega
      obtain ⟨pre', post, rfl, hat', hany'⟩ := ih hrest (by simpa [hkind] using h)
      refine ⟨pre ++ (option.value ++ pre'), post, by simp, ?_, fun value' hvalue => ?_⟩
      · simp only [hat', length_append] at hle ⊢
        omega
      · rw [append_assoc, append_assoc, rounds, hany option.value _ rfl (by simp [hvalue])]
        simpa [hkind] using hany' value' hvalue

/-! ### The option of a segment -/

def isSyn (seg : Bytes) : Bool := seg[13]?.any fun flags => flags &&& flagSyn ≠ 0

def firstMss (seg : Bytes) : Option TcpOption := (tcpOptions seg).find? fun option => option.kind = optionMss

/-- The value of the first MSS option, unless that is absent or too short. -/
def advertised (seg : Bytes) : Option ℕ := (firstMss seg).bind fun mss => (u16 mss.value).map Prod.fst

theorem mssAbove_eq_some : mssAbove seg clamp = some at_ ↔
    isSyn seg = true ∧ ∃ mss n, firstMss seg = some mss ∧ mss.at_ = at_ ∧ advertised seg = some n ∧ clamp < n := by
  unfold mssAbove isSyn advertised
  rw [show (tcpOptions seg).find? _ = firstMss seg from rfl]
  rcases seg[13]? with _ | flags
  · simp
  rcases firstMss seg with _ | mss
  · simp
  rcases hvalue : u16 mss.value with _ | ⟨n, rest⟩ <;> simp [hvalue, and_comm]

/-- Where the option stands, and what a segment advertises that differs there and in its check only. -/
theorem firstMss_spec (h : firstMss seg = some mss) : 20 ≤ mss.at_ ∧ mss.at_ + mss.value.length ≤ seg.length ∧
    ∀ seg' : Bytes, seg'.length = seg.length → 2 ≤ mss.value.length → slice seg' mss.at_ 2 = toBeBytes clamp →
      clamp < 65536 → (∀ i, i ∉ [mss.at_, mss.at_ + 1, 16, 17] → seg'[i]? = seg[i]?) →
        advertised seg' = some clamp := by
  unfold firstMss tcpOptions at h
  dsimp only at h
  split_ifs at h with hhdr
  · generalize hn : (seg.getD 12 0 >>> 4).toNat * 4 - 20 = n at h
    have hlen : (slice seg 20 n).length = n := length_slice (by omega)
    obtain ⟨pre, post, hbytes, hat, hany⟩ := rounds_spec le_rfl h
    have hst : Stands seg 20 (pre ++ (mss.value ++ post)) := hbytes ▸ stands_slice (by omega)
    rw [stands_append, stands_append] at hst
    have hsum := hlen
    rw [hbytes, length_append, length_append] at hsum
    rw [hlen, Nat.sub_self] at hat
    refine ⟨by omega, by omega, fun seg' hlen' htwo hnew hclamp hframe => ?_⟩
    have hpre := (hst.1.transfer (fun j hj => hframe (20 + j) (by simp; omega)) le_rfl).slice_eq
    have hpost := (hst.2.2.transfer (fun j hj => hframe (20 + pre.length + mss.value.length + j) (by simp; omega))
      le_rfl).slice_eq
    have hslice : slice seg' 20 n = pre ++ (slice seg' mss.at_ mss.value.length ++ post) := by
      rw [← hsum, slice_add, slice_add, hpre, hpost, hat]
    have hvalue : (slice seg' mss.at_ mss.value.length).length = mss.value.length := length_slice (by omega)
    have h12 : seg'.getD 12 0 = seg.getD 12 0 := by
      rw [getD_eq_getElem?_getD, getD_eq_getElem?_getD, hframe 12 (by simp; omega)]
    have hfirst : firstMss seg' = some { mss with value := slice seg' mss.at_ mss.value.length } := by
      unfold firstMss tcpOptions
      dsimp only
      rw [h12, if_pos (by omega), hn, Reader.all, length_slice (by omega), hslice, ← hany _ hvalue, hlen]
    obtain ⟨k, hk⟩ := Nat.exists_eq_add_of_le htwo
    rw [advertised, hfirst, Option.bind_some, hk, slice_add, hnew, u16_toBeBytes hclamp]
    rfl
  · cases h

/-! ### The packet -/

/-- The TCP segment that a packet declares, where its lengths are consistent. -/
structure Segment where
  start : ℕ
  total : ℕ
  pseudo : List Bytes
  headers : ℕ

def Segment.of (s : Segment) (packet : Bytes) : Bytes := slice packet s.start (s.total - s.start)

def declared (packet : Bytes) : Option Segment :=
  let version := packet.headD 0 >>> 4
  let ihl := (packet.headD 0 &&& 0x0f).toNat * 4
  let total := fromBeBytes (packet.getD 2 0) (packet.getD 3 0)
  let payloadLen := fromBeBytes (packet.getD 4 0) (packet.getD 5 0)
  if version = 4 ∧ packet.getD 9 0 = 6 ∧ 20 ≤ ihl ∧ ihl + 20 ≤ total ∧ total ≤ packet.length then
    some ⟨ihl, total, [slice packet 12 4, slice packet 16 4, [0, 6], toBeBytes (total - ihl)], 40⟩
  else if version = 6 ∧ packet.getD 6 0 = 6 ∧ 60 ≤ packet.length ∧ 40 + payloadLen ≤ packet.length then
    some ⟨40, 40 + payloadLen, [slice packet 8 16, slice packet 24 16, toBeBytes32 payloadLen, [0, 0, 0, 6]], 60⟩
  else none

theorem clampMss_eq (packet : Bytes) (mtu : Mtu) : clampMss packet mtu =
    match declared packet with
    | none => (packet, false)
    | some s =>
      match mssAbove (s.of packet) (mtu.bytes - s.headers) with
      | none => (packet, false)
      | some at_ => (rewriteMss packet s.start s.total (s.start + at_) (mtu.bytes - s.headers) s.pseudo, true) := by
  rcases packet with _ | ⟨first, tail⟩
  · rfl
  unfold clampMss declared clampIpv4 clampIpv6
  dsimp only [head?_cons, headD_cons]
  by_cases h4 : first >>> 4 = 4
  · have h6 : ¬ (4 : UInt8) = 6 := by decide
    simp only [h4, if_true, true_and, h6, false_and, if_false]
    split_ifs <;> first | rfl | grind [Segment.of]
  · simp only [h4, if_false, false_and]
    split_ifs <;> first | rfl | grind [Segment.of]

theorem declared_spec (h : declared packet = some s) : 20 ≤ s.start ∧ s.total ≤ packet.length ∧
    s.pseudo.flatten.length % 2 = 0 ∧ 0 < wordSum s.pseudo.flatten := by
  unfold declared at h
  dsimp only at h
  split_ifs at h with h4 h6
  · cases h
    have hlen : ∀ i, i + 4 ≤ 20 → (slice packet i 4).length = 4 := fun i hi => length_slice (by omega)
    refine ⟨h4.2.2.1, h4.2.2.2.2, ?_⟩
    simp only [flatten_cons, flatten_nil, append_nil, length_append]
    rw [hlen 12 (by decide), hlen 16 (by decide), wordSum_append _ (by rw [hlen]; decide),
      wordSum_append _ (by rw [hlen]; decide)]
    simp [wordSum, fromBeBytes, toBeBytes]
  · cases h
    have hlen : ∀ i, i + 16 ≤ 40 → (slice packet i 16).length = 16 := fun i hi => length_slice (by omega)
    refine ⟨by simp, h6.2.2.2, ?_⟩
    simp only [flatten_cons, flatten_nil, append_nil, length_append]
    rw [hlen 8 (by decide), hlen 24 (by decide), wordSum_append _ (by rw [hlen]; decide),
      wordSum_append _ (by rw [hlen]; decide)]
    simp [wordSum, fromBeBytes, toBeBytes32, toBeBytes]

theorem declared_congr {out : Bytes} (h : declared packet = some s) (hlen : out.length = packet.length)
    (hagree : ∀ i < s.start, out[i]? = packet[i]?) : declared out = some s := by
  obtain ⟨hstart, -⟩ := declared_spec h
  have hget : ∀ i < 20, out.getD i 0 = packet.getD i 0 := fun i hi => by
    rw [getD_eq_getElem?_getD, getD_eq_getElem?_getD, hagree i (by omega)]
  have hhead : out.headD 0 = packet.headD 0 := by
    rw [headD_eq_head?_getD, headD_eq_head?_getD, head?_eq_getElem?, head?_eq_getElem?, hagree 0 (by omega)]
  have hslice : ∀ i n, i + n ≤ s.start → slice out i n = slice packet i n := fun i n hi => by
    apply ext_getElem?
    intro j
    rw [getElem?_slice, getElem?_slice]
    split_ifs
    · exact hagree _ (by omega)
    · rfl
  unfold declared at h ⊢
  dsimp only at h ⊢
  rw [hhead, hget 9 (by decide), hget 2 (by decide), hget 3 (by decide), hget 4 (by decide), hget 5 (by decide),
    hget 6 (by decide), hlen]
  split_ifs at h ⊢
  · rw [hslice 12 4 (by omega), hslice 16 4 (by omega)]
    exact h
  · cases h
    rw [hslice 8 16 (by simp), hslice 24 16 (by simp)]

/-- What clamping has made of a packet. -/
structure Clamped (packet out : Bytes) (s : Segment) (clamp : ℕ) : Prop where
  syn : isSyn (s.of packet) = true
  above : ∃ n, advertised (s.of packet) = some n ∧ clamp < n
  now : advertised (s.of out) = some clamp
  sum : checksum (s.pseudo ++ [s.of out]) = 0
  length : out.length = packet.length
  frame : ∃ mss, firstMss (s.of packet) = some mss ∧ s.start + mss.at_ + 2 ≤ s.total ∧ s.total ≤ packet.length ∧
    ∀ i, i ∉ [s.start + mss.at_, s.start + mss.at_ + 1, s.start + 16, s.start + 17] → out[i]? = packet[i]?

theorem rewriteMss_spec {pseudo : List Bytes} (clamp : ℕ) (hat : 20 ≤ at_) (hin : start + at_ + 2 ≤ total)
    (htotal : total ≤ packet.length) (heven : pseudo.flatten.length % 2 = 0) (hpos : 0 < wordSum pseudo.flatten) :
    let out := rewriteMss packet start total (start + at_) clamp pseudo
    out.length = packet.length ∧ slice out (start + at_) 2 = toBeBytes clamp ∧
      checksum (pseudo ++ [slice out start (total - start)]) = 0 ∧
      ∀ i, i ∉ [start + at_, start + at_ + 1, start + 16, start + 17] → out[i]? = packet[i]? := by
  unfold rewriteMss
  dsimp only
  rw [show ([0, 0] : Bytes) = toBeBytes 0 from rfl]
  have hmss : start + at_ + (toBeBytes clamp).length ≤ packet.length := by rw [length_toBeBytes]; omega
  have hzero : start + 16 + (toBeBytes 0).length ≤ (overwrite packet (start + at_) (toBeBytes clamp)).length := by
    rw [length_overwrite hmss, length_toBeBytes]
    omega
  generalize hz : overwrite (overwrite packet (start + at_) (toBeBytes clamp)) (start + 16) (toBeBytes 0) = z
  generalize hc : checksum (pseudo ++ [slice z start (total - start)]) = c
  have hsum : start + 16 + (toBeBytes c).length ≤ z.length := by
    rw [← hz, length_overwrite hzero]
    exact hzero
  refine ⟨?_, ?_, ?_, fun i hi => ?_⟩
  · rw [length_overwrite hsum, ← hz, length_overwrite hzero, length_overwrite hmss]
  · rw [slice_overwrite_of_disjoint hsum (.inr (by rw [length_toBeBytes]; omega)), ← hz,
      slice_overwrite_of_disjoint hzero (.inr (by rw [length_toBeBytes]; omega))]
    exact slice_overwrite hmss
  · obtain ⟨n, hn⟩ := Nat.exists_eq_add_of_le (show 18 ≤ total - start by omega)
    have hcut : ∀ bytes : Bytes, slice bytes start (total - start) =
        slice bytes start 16 ++ (slice bytes (start + 16) 2 ++ slice bytes (start + 16 + 2) n) := fun bytes => by
      rw [hn, Nat.add_assoc 16 2 n, slice_add, slice_add]
    have hfield : slice z (start + 16) 2 = toBeBytes 0 := by
      rw [← hz]
      exact slice_overwrite hzero
    rw [hcut, hfield, checksum_append, ← append_assoc, ← append_assoc] at hc
    rw [hcut, slice_overwrite_of_disjoint hsum (.inl le_rfl), show slice _ (start + 16) 2 = _ from slice_overwrite hsum,
      slice_overwrite_of_disjoint hsum (.inr (by rw [length_toBeBytes])), checksum_append, ← append_assoc, ← append_assoc]
    have hlen : (slice z start 16).length = 16 := length_slice (by rw [length_toBeBytes] at hsum; omega)
    refine checksum_field (by rw [length_append, hlen]; omega) ?_ (.inl hc.symm)
    rw [append_assoc, append_assoc, wordSum_append _ heven]
    omega
  · simp only [mem_cons, not_mem_nil, or_false, not_or] at hi
    rw [getElem?_overwrite hsum, if_neg (by rw [length_toBeBytes]; omega), ← hz, getElem?_overwrite hzero,
      if_neg (by rw [length_toBeBytes]; omega), getElem?_overwrite hmss, if_neg (by rw [length_toBeBytes]; omega)]

theorem clamped_rewriteMss (h : declared packet = some s) (hclamp : clamp < 65536)
    (hmss : mssAbove (s.of packet) clamp = some at_) :
    Clamped packet (rewriteMss packet s.start s.total (s.start + at_) clamp s.pseudo) s clamp := by
  obtain ⟨hstart, htotal, heven, hpos⟩ := declared_spec h
  obtain ⟨hsyn, mss, n, hfirst, rfl, hadv, habove⟩ := mssAbove_eq_some.mp hmss
  obtain ⟨hat, hwith, hnew⟩ := @firstMss_spec _ _ clamp hfirst
  have htwo : 2 ≤ mss.value.length := by
    rw [advertised, hfirst, Option.bind_some, Option.map_eq_some_iff] at hadv
    obtain ⟨read, hread, -⟩ := hadv
    obtain ⟨high, low, hbytes, -⟩ := u16_eq_some.mp hread
    simp [hbytes]
  have hle : (s.of packet).length ≤ s.total - s.start := length_take_le _ _
  have hin : s.start + mss.at_ + 2 ≤ s.total := by omega
  obtain ⟨hlength, hvalue, hsum, hframe⟩ := rewriteMss_spec clamp hat hin htotal heven hpos
  generalize rewriteMss packet s.start s.total (s.start + mss.at_) clamp s.pseudo = out at *
  refine ⟨hsyn, ⟨n, hadv, habove⟩, ?_, hsum, hlength, mss, hfirst, hin, htotal, hframe⟩
  refine hnew _ ?_ htwo ?_ hclamp fun i hi => ?_
  · rw [Segment.of, Segment.of, length_slice (by omega), length_slice (by omega)]
  · rw [← hvalue, Segment.of]
    apply ext_getElem?
    intro j
    rw [getElem?_slice, getElem?_slice, getElem?_slice]
    split_ifs
    · congr 1
      omega
    · omega
    · rfl
  · rw [Segment.of, Segment.of, getElem?_slice, getElem?_slice]
    split_ifs
    · exact hframe _ (by simp at hi ⊢; omega)
    · rfl

theorem length_clampMss (packet : Bytes) (mtu : Mtu) : (clampMss packet mtu).1.length = packet.length := by
  rw [clampMss_eq]
  rcases hdecl : declared packet with _ | s
  · rfl
  dsimp only
  rcases hmss : mssAbove (s.of packet) (mtu.bytes - s.headers) with _ | at_
  · rfl
  · exact (clamped_rewriteMss hdecl ((Nat.sub_le _ _).trans_lt mtu.lt_max) hmss).length

/-- **Clamping changes only what it must.** -/
theorem clampMss_changes (packet : Bytes) (mtu : Mtu) :
    ((clampMss packet mtu).2 = false → (clampMss packet mtu).1 = packet) ∧
      ((clampMss packet mtu).2 = true → ∃ s, declared packet = some s ∧
        Clamped packet (clampMss packet mtu).1 s (mtu.bytes - s.headers) ∧
        (clampMss (clampMss packet mtu).1 mtu).2 = false) ∧
      ∀ s, declared packet = some s → isSyn (s.of packet) = true → (clampMss packet mtu).2 = false →
        ∀ n, advertised (s.of packet) = some n → n ≤ mtu.bytes - s.headers := by
  have heq := clampMss_eq packet mtu
  rcases hdecl : declared packet with _ | s
  · rw [hdecl] at heq
    simp [heq]
  rw [hdecl] at heq
  rcases hmss : mssAbove (s.of packet) (mtu.bytes - s.headers) with _ | at_
  · simp only [hmss] at heq
    rw [heq]
    refine ⟨fun _ => rfl, nofun, ?_⟩
    rintro _ ⟨⟩ hsyn - n hadv
    by_contra habove
    obtain ⟨mss, hfirst, -⟩ := Option.bind_eq_some_iff.mp hadv
    exact nomatch hmss.symm.trans (mssAbove_eq_some.mpr ⟨hsyn, mss, n, hfirst, rfl, hadv, not_le.mp habove⟩)
  · simp only [hmss] at heq
    have hclamped := clamped_rewriteMss hdecl ((Nat.sub_le _ _).trans_lt mtu.lt_max) hmss
    rw [heq]
    refine ⟨nofun, fun _ => ⟨s, rfl, hclamped, ?_⟩, nofun⟩
    obtain ⟨mss, -, -, -, hframe⟩ := hclamped.frame
    rw [clampMss_eq, declared_congr hdecl hclamped.length fun i hi => hframe i (by simp; omega)]
    dsimp only
    generalize rewriteMss _ _ _ _ _ _ = out at hclamped
    rcases hagain : mssAbove (s.of out) (mtu.bytes - s.headers) with _ | at'
    · rfl
    · obtain ⟨-, -, n, -, -, hadv, hlt⟩ := mssAbove_eq_some.mp hagain
      cases hclamped.now.symm.trans hadv
      exact absurd hlt (lt_irrefl _)

end Boreas.L3
