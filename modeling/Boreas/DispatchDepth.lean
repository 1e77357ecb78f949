import Boreas.Arrivals
import Boreas.ReassemblyGenuine

/-! # The depth of dispatch

A nested call of `dispatch` follows the end of a pending datagram, or of one that its fragment completes alone and that
is shorter by a Fragment header (`push_shrinks`).  So the bound that `dispatch` gives is never used up
(`dispatchWithin_of_depth`).  It is the number of pending datagrams exactly when each nested call ends one of them
(`ends_pending_iff`): a Fragment header that does not fragment may stand before one that does. -/

namespace Boreas

open Dispatcher L3 List Option Slices Table
open Pending (isComplete settle settled store)

/-! ### A completed datagram -/

theorem length_rebuild (h : rebuild headers nextHeaderAt protocol data = some pkt) :
    pkt.length = headers.length + data.length ∧ pkt.length ≤ maxRebuilt := by
  unfold rebuild at h
  cases nextHeaderAt with
  | none =>
    dsimp only at h
    split_ifs at h with hshort hlong
    cases h
    have hlen : (rebuildIpv4 (headers ++ data)).length = (headers ++ data).length := by
      have hunsummed := length_ipv4Unsummed (show 20 ≤ (headers ++ data).length by omega) (headers ++ data).length
      refine Eq.trans ?_ hunsummed
      change (overwrite (ipv4Unsummed (headers ++ data) (headers ++ data).length) 10 (toBeBytes _)).length = _
      refine length_overwrite ?_
      rw [length_toBeBytes, hunsummed]
      omega
    rw [hlen, length_append] at *
    unfold maxRebuilt
    omega
  | some n =>
    dsimp only at h
    split_ifs at h with hshort hplace hlong
    cases h
    have hlen : (rebuildIpv6 (headers ++ data) n protocol).length = (headers ++ data).length := by
      unfold rebuildIpv6
      rw [length_overwrite, length_set]
      simp only [length_set, length_toBeBytes]
      unfold ipv6HeaderBytes at hshort
      omega
    rw [hlen, length_append] at *
    unfold maxRebuilt
    omega

theorem Fragment.lone (hf : f.Acceptable) (h : ((Pending.new e).receive f).2 = .complete) :
    f.offset = 0 ∧ f.moreFragments = false ∧ ((Pending.new e).receive f).1.headers = f.headers ∧
      ((Pending.new e).receive f).1.total = some f.payload.length := by
  unfold Pending.receive at h ⊢
  split_ifs at h ⊢ with hpoi hcontr hovl hmore hlong
  · -- Without the last fragment the total is not known.
    simp [settle, settled, isComplete, Pending.store_eq, Pending.new] at h
  have hblocks : f.lastBlock - f.firstBlock + 1 = (f.extent + 7) / 8 := by
    simpa [settle, settled, isComplete, Pending.store_eq, Pending.new] using h
  have hend := Fragment.endBlock_eq hf
  have hlt := Fragment.firstBlock_lt_endBlock hf
  unfold Fragment.endBlock at hend hlt
  have hoff : f.offset = 0 := by
    rw [Fragment.offset_eq]
    omega
  refine ⟨hoff, by simpa using hmore, ?_, ?_⟩
  · simp [settle, store, Pending.markReceived, Pending.inheritHeaders, hoff]
  · simp [settle, Fragment.extent, hoff]

/-! ### Pushing a fragment -/

theorem push_shrinks {r : Reassembler} (h : r.push f now = (r', .complete packet)) :
    packet.length ≤ maxRebuilt ∧ r'.pending.lookup f.key = none ∧
      ((r.pending.lookup f.key).isSome ∧ size r'.pending < size r.pending ∨
        r.pending.lookup f.key = none ∧ size r'.pending ≤ size r.pending ∧ f.offset = 0 ∧ f.moreFragments = false ∧
          packet.length ≤ f.headers.length + f.payload.length) := by
  rcases r.push_cases f now with ⟨hdisc, -⟩ | ⟨hacc, r₀, hpush, hexp, hsame⟩
  · rw [h] at hdisc
    cases hdisc
  obtain ⟨p, hopen, hoth, hout⟩ := r₀.take_spec f now
  rw [← hpush, h] at hoth hout
  rcases hout with ⟨-, hne, -⟩ | ⟨-, hne, -⟩ | ⟨hcomp, -, hgone, hrebuilt⟩
  · cases hne
  · cases hne
  have hrebuild := (hrebuilt packet).mp rfl
  obtain ⟨hlen, hmax⟩ := length_rebuild hrebuild
  -- What is pending afterwards was pending before.
  have hsub : ∀ k v, r'.pending.lookup k = some v → (r.pending.lookup k).isSome := by
    intro k v hv
    by_cases hk : k = f.key
    · rw [hk, hgone] at hv
      cases hv
    · rw [hoth k hk] at hv
      obtain ⟨p₀, e, hp₀, -⟩ := hexp k v hv
      rw [hp₀]
      rfl
  refine ⟨hmax, hgone, ?_⟩
  cases hpend : r.pending.lookup f.key with
  | some p₀ => exact .inl ⟨rfl, size_lt (by rw [hpend]; rfl) hgone hsub⟩
  | none =>
    have hnew : ∃ e, p = Pending.new e := by
      rcases hopen with ⟨p₀, e, hp₀, -⟩ | ⟨-, hnew⟩
      · obtain ⟨p₁, e₁, hp₁, -⟩ := hexp f.key p₀ hp₀
        rw [hpend] at hp₁
        cases hp₁
      · exact hnew
    obtain ⟨e, rfl⟩ := hnew
    obtain ⟨hoff, hmore, hhdrs, htotal⟩ := Fragment.lone hacc hcomp
    refine .inr ⟨rfl, size_le hsub, hoff, hmore, ?_⟩
    rw [hlen, hhdrs, htotal, getD_some, length_take]
    omega

theorem length_of_lone (h : fragmentOf E buf = .ok (some f))
    (hoffset : f.offset = 0) (hmore : f.moreFragments = false) :
    f.headers.length + f.payload.length < buf.length := by
  unfold fragmentOf at h
  rcases hip : E.fromIp buf with _ | sliced
  · simp [hip] at h
  simp only [hip, Except.ok.injEq] at h
  rcases hnet : sliced.net with _ | net
  · simp [hnet, Fragment.parse] at h
  rw [hnet] at h
  cases net with
  | arp => simp [Fragment.parse] at h
  | ipv4 slice =>
    dsimp only [Fragment.parse] at h
    split_ifs at h with hfrag
    cases h
    dsimp only at hoffset hmore
    rcases E.fragmented_ipv4 buf sliced slice hip hnet hfrag with hmf | hoff
    · rw [hmore] at hmf
      cases hmf
    · refine absurd (Fin.ext ?_) hoff
      simpa using hoffset
  | ipv6 slice =>
    dsimp only [Fragment.parse] at h
    split_ifs at h with hfrag
    split at h
    · next header n a hhdr hplace =>
        cases h
        have hspec := ipv6FragmentHeader_spec hplace
        obtain ⟨-, -, -, hfits⟩ := hspec
        rw [length_take, length_drop]
        unfold ipv6FragmentBytes at hfits ⊢
        omega
    · cases h

/-! ### Nested calls -/

namespace Dispatcher

/-- The arguments of a call of `dispatch`. -/
structure Call where
  d : Dispatcher
  packet : IngressPacket
  buf : Bytes

/-- The call within a call, and the fragment that completes the datagram it is for. -/
def Call.nested (E : Etherparse) (now : Instant) (c : Call) : Option (Fragment × Call) :=
  if c.packet.transport = .fragment then
    match fragmentOf E c.buf with
    | .ok (some fragment) =>
      match c.d.reassembler.push fragment now with
      | (reassembler, .complete datagram) =>
        match IngressPacket.parse E datagram with
        | .ok packet => some (fragment, ⟨{ c.d with reassembler := reassembler }, packet, datagram⟩)
        | .error _ => none
      | _ => none
    | _ => none
  else none

/-- The call that is `n` calls deep. -/
def Call.deep (E : Etherparse) (now : Instant) : ℕ → Call → Option Call
  | 0, c => some c
  | n + 1, c => (c.nested E now).bind fun next => next.2.deep E now n

variable {E : Etherparse} {now : Instant}

theorem Call.nested_push (h : Call.nested E now c = some (f, c')) : fragmentOf E c.buf = .ok (some f) ∧
    c.d.reassembler.push f now = (c'.d.reassembler, .complete c'.buf) := by
  unfold nested at h
  split_ifs at h
  split at h
  · rename_i frag hfrag
    split at h
    · rename_i reasm dgram hpush
      split at h
      · cases h
        exact ⟨hfrag, hpush⟩
      · cases h
    · cases h
  · cases h

theorem Call.depth_nested (h : Call.nested E now c = some (f, c')) : c'.d.depth c'.buf < c.d.depth c.buf := by
  obtain ⟨hfrag, hpush⟩ := nested_push h
  unfold depth
  obtain ⟨hmax, -, ⟨-, hshrinks⟩ | ⟨-, hsize, hoff, hmore, hlen⟩⟩ := push_shrinks hpush
  · have := Nat.mul_le_mul_right (maxRebuilt + 1) hshrinks
    rw [Nat.succ_mul] at this
    omega
  · have hlone := length_of_lone hfrag hoff hmore
    have := Nat.mul_le_mul_right (maxRebuilt + 1) hsize
    omega

theorem Call.deep_of_depth (c : Call) (h : c.d.depth c.buf ≤ n) : c.deep E now n = none := by
  induction n generalizing c with
  | zero =>
    unfold depth at h
    omega
  | succ n ih =>
    rw [deep, bind_eq_none_iff]
    intro next hnext
    have := depth_nested hnext
    exact ih next.2 (by omega)

/-! ### Enough depth -/

theorem onFragment_congr (hpkt : pkt.transport = .fragment)
    (h : ∀ frag c, Call.nested E now ⟨d, pkt, buf⟩ = some (frag, c) →
      f c.d c.packet (.borrowed c.buf) origin now = g c.d c.packet (.borrowed c.buf) origin now) :
    d.onFragment E f buf origin now = d.onFragment E g buf origin now := by
  unfold onFragment
  unfold Call.nested at h
  rw [if_pos hpkt] at h
  rcases hfrag : fragmentOf E buf with _ | frag
  · rfl
  rcases frag with _ | frag
  · rfl
  rw [hfrag] at h
  dsimp only at h ⊢
  rcases hpush : d.reassembler.push frag now with ⟨reasm, pushed⟩
  rw [hpush] at h
  cases pushed with
  | pending | discarded => rfl
  | complete dgram =>
    dsimp only at h ⊢
    rcases hparse : IngressPacket.parse E dgram with _ | pkt
    · rfl
    rw [hparse] at h
    exact h _ _ rfl

theorem dispatchWithin_of_deep (origin : Side) :
    ∀ (n m : ℕ) (d : Dispatcher) (packet : IngressPacket) (ingress : Ingress), n ≤ m →
      Call.deep E now n ⟨d, packet, ingress.bytes⟩ = none →
      dispatchWithin E n d packet ingress origin now = dispatchWithin E m d packet ingress origin now := by
  intro n
  induction n with
  | zero => exact fun _ _ _ _ _ => nofun
  | succ n ih =>
    intro m d packet ingress hm hdeep
    obtain ⟨m, rfl⟩ : ∃ k, m = k + 1 := ⟨m - 1, by omega⟩
    rw [Call.deep, bind_eq_none_iff] at hdeep
    unfold dispatchWithin
    rcases hact : d.action packet origin now with _ | action
    · rfl
    by_cases hreas : action = .reassemble
    · rw [hreas] at hact ⊢
      have hpkt : packet.transport = .fragment := action_reassemble hact
      dsimp only
      rw [onFragment_congr hpkt fun frag c hc =>
        ih m c.d c.packet (.borrowed c.buf) (by omega) (hdeep _ hc)]
    · cases action <;> first | rfl | exact absurd rfl hreas

/-- **More depth makes no difference** than what `dispatch` gives. -/
theorem dispatchWithin_of_depth (E : Etherparse) (origin : Side) (now : Instant) (d : Dispatcher)
    (packet : IngressPacket) (ingress : Ingress) (more : ℕ) : d.dispatch E packet ingress origin now =
      dispatchWithin E (d.depth ingress.bytes + more) d packet ingress origin now :=
  dispatchWithin_of_deep origin _ _ d packet ingress (Nat.le_add_right _ more) (Call.deep_of_depth _ le_rfl)

/-! ### As deep as datagrams are pending -/

/-- Each nested call follows the end of a pending datagram, so the calls are as deep as datagrams are pending. -/
structure EndsPending (E : Etherparse) (now : Instant) (c : Call) : Prop where
  ends : ∀ n c' f c'', c.deep E now n = some c' → c'.nested E now = some (f, c'') →
    (c'.d.reassembler.pending.lookup f.key).isSome ∧ c''.d.reassembler.pending.lookup f.key = none
  deep : ∀ n, (c.deep E now n).isSome → n ≤ size c.d.reassembler.pending
  dispatch : ∀ ingress origin, ingress.bytes = c.buf → c.d.dispatch E c.packet ingress origin now =
    dispatchWithin E (size c.d.reassembler.pending + 1) c.d c.packet ingress origin now

/-- No fragment is a datagram of its own. -/
def NoneAlone (E : Etherparse) (now : Instant) (c : Call) : Prop :=
  ∀ n c' f c'', c.deep E now n = some c' → c'.nested E now = some (f, c'') →
    f.offset = 0 → f.moreFragments = false → (c'.d.reassembler.pending.lookup f.key).isSome

theorem Call.size_nested {c : Call} (hnest : c.nested E now = some (f, c'))
    (halone : f.offset = 0 → f.moreFragments = false → (c.d.reassembler.pending.lookup f.key).isSome) :
    (c.d.reassembler.pending.lookup f.key).isSome ∧ c'.d.reassembler.pending.lookup f.key = none ∧
      size c'.d.reassembler.pending < size c.d.reassembler.pending := by
  obtain ⟨-, hgone, ⟨hpend, hsize⟩ | ⟨hnone, -, hoff, hmore, -⟩⟩ := push_shrinks (nested_push hnest).2
  · exact ⟨hpend, hgone, hsize⟩
  · have := halone hoff hmore
    rw [hnone] at this
    cases this

theorem deep_le_pending (h : NoneAlone E now c) (hn : (c.deep E now n).isSome) :
    n ≤ size c.d.reassembler.pending := by
  induction n generalizing c with
  | zero => exact Nat.zero_le _
  | succ n ih =>
    obtain ⟨c', hc'⟩ := isSome_iff_exists.mp hn
    obtain ⟨⟨f, next⟩, hnest, hdeep⟩ := bind_eq_some_iff.mp hc'
    have hsize := (Call.size_nested hnest (h 0 c f next rfl hnest)).2.2
    have hle := ih (c := next) (fun m c' f c'' hm => h (m + 1) c' f c'' (by rw [Call.deep, hnest]; exact hm))
      (by rw [hdeep]; rfl)
    omega

/-- **The calls are as deep as datagrams are pending** exactly when no fragment completes a datagram alone. -/
theorem ends_pending_iff (E : Etherparse) (now : Instant) (c : Call) : EndsPending E now c ↔ NoneAlone E now c := by
  constructor
  · exact fun h n c' f c'' hdeep hnest _ _ => (h.ends n c' f c'' hdeep hnest).1
  · intro h
    refine ⟨fun n c' f c'' hdeep hnest => ?_, fun n => deep_le_pending h, fun ingress origin hbytes => ?_⟩
    · obtain ⟨hpend, hgone, -⟩ := Call.size_nested hnest (h n c' f c'' hdeep hnest)
      exact ⟨hpend, hgone⟩
    · have hdeep : c.deep E now (size c.d.reassembler.pending + 1) = none := by
        by_contra hsome
        have := deep_le_pending h (isSome_iff_ne_none.mpr hsome)
        omega
      refine (dispatchWithin_of_deep origin _ _ c.d c.packet ingress ?_ (by rw [hbytes]; exact hdeep)).symm
      unfold depth
      have := Nat.le_mul_of_pos_right (size c.d.reassembler.pending) (show 0 < maxRebuilt + 1 by omega)
      omega

/-- A Fragment header that does not fragment, before one that does. -/
def twoHeaders : Bytes :=
  [0x60, 0, 0, 0, 0, 24, 44, 64] ++ replicate 32 1 ++ [44, 0, 0, 0, 0, 0, 0, 5] ++ [17, 0, 0, 1, 0, 0, 0, 6] ++
    replicate 8 7

def twoHeadersPacket : IngressPacket :=
  ⟨.v6 (BitVec.ofNat 128 (ofOctets (replicate 16 1))), .v6 (BitVec.ofNat 128 (ofOctets (replicate 16 1))), .fragment,
    0, 0, rfl⟩

set_option maxRecDepth 2000 in
/-- Nothing is pending, and there is a call within the call. -/
theorem deep_without_pending : IngressPacket.parse plainFragments twoHeaders = .ok twoHeadersPacket ∧
    size (inspecting .flows).reassembler.pending = 0 ∧
    (Call.nested plainFragments (Instant.ofSecs 0) ⟨inspecting .flows, twoHeadersPacket, twoHeaders⟩).isSome ∧
    ¬ EndsPending plainFragments (Instant.ofSecs 0) ⟨inspecting .flows, twoHeadersPacket, twoHeaders⟩ := by
  have hnest : (Call.nested plainFragments (Instant.ofSecs 0)
      ⟨inspecting .flows, twoHeadersPacket, twoHeaders⟩).isSome := by decide +kernel
  refine ⟨rfl, rfl, hnest, fun h => ?_⟩
  obtain ⟨⟨f, c⟩, hc⟩ := isSome_iff_exists.mp hnest
  exact absurd (h.deep 1 (by rw [Call.deep, hc]; rfl)) (by decide)

end Dispatcher

end Boreas
