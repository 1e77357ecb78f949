import Boreas.Packet

/-! # Bytes after a fragment

`Fragment::parse` takes the payload of an IPv4 fragment from the slicer, which ends at the length that the header
declares, and that of an IPv6 fragment from the buffer.  `parsed_alike_iff`: bytes that follow the datagram make no
difference exactly when the buffer does not hold an IPv6 fragment. -/

namespace Boreas

open L3 List
open Fragment (parse payload)

/-- The length that the header declares. -/
def declaredLength (packet : Bytes) : ℕ :=
  if packet.headD 0 >>> 4 = 4 then fromBeBytes (packet.getD 2 0) (packet.getD 3 0)
  else ipv6HeaderBytes + fromBeBytes (packet.getD 4 0) (packet.getD 5 0)

theorem headD_followed {packet : Bytes} (h : packet.headD 0 >>> 4 = version) (hne : version ≠ 0) (more : Bytes) :
    (packet ++ more).headD 0 = packet.headD 0 := by
  cases packet with
  | nil => exact absurd h.symm hne
  | cons b packet => rfl

/-- The same slice, of the datagram with more bytes after it. -/
def L3.NetSlice.followed {packet : Bytes} (more : Bytes) : NetSlice packet → NetSlice (packet ++ more)
  | .arp => .arp
  | .ipv6 slice => .ipv6 { slice with version := by rw [headD_followed slice.version (by decide), slice.version] }
  | .ipv4 slice => .ipv4
      { slice with
        headerRead := by
          obtain ⟨hfive, hlength, hihl⟩ := slice.headerRead
          rw [headD_followed slice.version (by decide)]
          exact ⟨hfive, hlength.trans (by simp), hihl⟩
        version := by rw [headD_followed slice.version (by decide), slice.version] }

/-- The slicer does not look past the declared length. -/
def Etherparse.EndsAtDeclared (E : Etherparse) : Prop :=
  ∀ packet sliced more, E.fromIp packet = some sliced → declaredLength packet = packet.length →
    (E.fromIp (packet ++ more)).map SlicedPacket.net = some (sliced.net.map (NetSlice.followed more))

theorem ipv6FragmentHeaderFrom_append (h : ipv6FragmentHeaderFrom pkt n a = some place) (more : Bytes) :
    ipv6FragmentHeaderFrom (pkt ++ more) n a = some place := by
  have hat : ∀ {n : ℕ} {b : UInt8}, pkt[n]? = some b → (pkt ++ more)[n]? = some b := fun hb => by
    rw [getElem?_append_left (List.getElem?_eq_some_iff.mp hb).1, hb]
  fun_induction ipv6FragmentHeaderFrom pkt n a with
  | case1 | case3 | case6 | case7 => cases h
  | case2 n a hfits hnext =>
    rw [ipv6FragmentHeaderFrom, hat hnext]
    dsimp only
    rw [if_pos rfl, if_pos (hfits.trans (by simp)), h]
  | case4 n a next hnext hfrag hfits hkind ih =>
    rw [ipv6FragmentHeaderFrom, hat hnext]
    dsimp only
    rw [if_neg hfrag, dif_pos (hfits.trans_le (by simp)), if_pos hkind, getElem_append_left hfits]
    exact ih h
  | case5 n a hfits hnext hfrag hkind ih =>
    rw [ipv6FragmentHeaderFrom, hat hnext]
    dsimp only
    rw [if_neg hfrag, dif_pos (hfits.trans_le (by simp)), if_neg hkind, if_pos rfl, getElem_append_left hfits]
    exact ih h

theorem parse_ipv6 {slice : Ipv6Slice packet} (h : parse (some (.ipv6 slice)) = some f) :
    ∃ n a, ipv6FragmentHeader packet = some (n, a) ∧ f.payload = packet.drop (a + ipv6FragmentBytes) := by
  simp only [parse] at h
  split_ifs at h
  split at h
  · rename_i place
    cases h
    exact ⟨_, _, place, rfl⟩
  · cases h

/-- Only an IPv4 fragment is read alike once bytes follow it: after an IPv6 one they are part of the payload. -/
theorem parse_followed {net : NetSlice packet} (hmore : more ≠ []) (hf : parse (some net) = some f) :
    parse (some (net.followed more)) = some f ↔ packet.headD 0 >>> 4 = 4 := by
  cases net with
  | arp => cases hf
  | ipv4 slice =>
    have hhdrs : (packet ++ more).take (slice.ihl * 4) = packet.take (slice.ihl * 4) :=
      take_append_of_le_length slice.headerRead.2.1
    refine iff_of_true ?_ slice.version
    simpa only [NetSlice.followed, parse, hhdrs] using hf
  | ipv6 slice =>
    obtain ⟨n, a, hshort, hpay⟩ := parse_ipv6 hf
    refine iff_of_false (fun hlong => ?_) (by rw [slice.version]; decide)
    obtain ⟨n', a', hplace, hpay'⟩ := parse_ipv6 hlong
    obtain ⟨-, rfl⟩ : n = n' ∧ a = a' := by
      simpa [ipv6FragmentHeader] using (ipv6FragmentHeaderFrom_append hshort more).symm.trans hplace
    -- The header lies within the datagram, so the bytes after it are all payload.
    have hfits := (ipv6FragmentHeader_spec hshort).2.2.2
    have hlen := congrArg length (hpay.symm.trans hpay')
    rw [length_drop, length_drop, length_append] at hlen
    have := length_pos_iff.mpr hmore
    omega

variable {E : Etherparse}

/-- **Bytes that follow a fragment make no difference** exactly when the fragment is one of IPv4. -/
theorem parsed_alike_iff (hE : E.EndsAtDeclared) (hlen : declaredLength packet = packet.length)
    (hf : fragmentOf E packet = .ok (some f)) (more : Bytes) :
    fragmentOf E (packet ++ more) = fragmentOf E packet ↔ more = [] ∨ packet.headD 0 >>> 4 = 4 := by
  by_cases hmore : more = []
  · simp [hmore]
  rcases hshort : E.fromIp packet with _ | sliced
  · simp [fragmentOf, hshort] at hf
  obtain ⟨long, hlong, hnet⟩ := Option.map_eq_some_iff.mp (hE packet sliced more hshort hlen)
  simp only [fragmentOf, hshort, Except.ok.injEq] at hf
  simp only [fragmentOf, hshort, hlong, hnet, hf, hmore, false_or, Except.ok.injEq]
  cases hn : sliced.net with
  | none => simp [hn, parse] at hf
  | some net => exact parse_followed hmore (hn ▸ hf)

theorem endsAtDeclared_plainFragments : plainFragments.EndsAtDeclared := by
  intro pkt sliced more hsli _
  simp only [plainFragments] at hsli ⊢
  split_ifs at hsli with h
  cases hsli
  have hhdrs : (pkt ++ more).take 56 = pkt.take 56 := take_append_of_le_length (by omega)
  have hhead : (pkt ++ more).headD 0 = pkt.headD 0 := headD_followed rfl (by rw [h.1]; decide) more
  rw [dif_pos (by rw [hhdrs, hhead]; exact ⟨h.1, h.2.1, h.2.2.1, h.2.2.2.trans (by simp)⟩)]
  simp only [hhdrs]
  rfl

/-- The first fragment of a UDP datagram, with one block of payload. -/
def firstFragment : Bytes :=
  [0x60, 0, 0, 0, 0, 16, 44, 64] ++ replicate 32 1 ++ [17, 0, 0, 1, 0, 0, 0, 5] ++ replicate 8 7

theorem parsed_alike_iff_firstFragment : ∃ f, fragmentOf plainFragments firstFragment = .ok (some f) ∧
      (fragmentOf plainFragments (firstFragment ++ [9]) = fragmentOf plainFragments firstFragment ↔
        [(9 : UInt8)] = [] ∨ firstFragment.headD 0 >>> 4 = 4) := by
  have hsome : (fragmentOf plainFragments firstFragment).toOption.join.isSome := by decide +kernel
  rcases hf : fragmentOf plainFragments firstFragment with _ | frag
  · simp [hf, Except.toOption] at hsome
  rw [hf] at hsome
  obtain ⟨f, rfl⟩ := Option.isSome_iff_exists.mp hsome
  exact ⟨f, rfl, hf ▸ parsed_alike_iff endsAtDeclared_plainFragments (by decide) hf [9]⟩

/-- The byte that follows the fragment ends its payload. -/
theorem trailing_byte_in_payload : declaredLength firstFragment = firstFragment.length ∧
      (fragmentOf plainFragments firstFragment).map (Option.map payload) = .ok (some (replicate 8 7)) ∧
      (fragmentOf plainFragments (firstFragment ++ [9])).map (Option.map payload) =
        .ok (some (replicate 8 7 ++ [9])) := by
  decide +kernel

end Boreas
