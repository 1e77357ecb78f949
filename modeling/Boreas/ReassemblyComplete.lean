import Boreas.ReassemblyGenuine

/-! # Reassembly is complete

The fragments of a datagram, pushed in any order and among fragments of other keys, give the datagram back
(`complete_split`).  `Split` says that fragments are a split of an `Original`: they lie end to end, the last one alone
has no more after it, and the first one has its headers, but for the fields that fragmentation sets. -/

namespace Boreas.L3

open Instant List Slices Tiling
open Fragment (endBlock extent firstBlock key lastBlock offset)

/-! ### A datagram and its fragments -/

/-- The header of a datagram of `size` bytes that is not fragmented. For IPv6 these are the headers before the place
of a Fragment header, the last of which names the protocol. -/
def Unfragmented (header : Bytes) (nextHeaderAt : Option ℕ) (protocol : UInt8) (size : ℕ) : Prop :=
  match nextHeaderAt with
  | none =>
    header.headD 0 >>> 4 = 4 ∧ slice header 2 2 = toBeBytes size ∧ header[6]?.map (· &&& 0xc0) = header[6]? ∧
      header[7]? = some 0 ∧ size ≤ 65535
  | some n =>
    header.headD 0 >>> 4 = 6 ∧ slice header 4 2 = toBeBytes (size - ipv6HeaderBytes) ∧ header[n]? = some protocol ∧
      size - ipv6HeaderBytes ≤ 65535

structure Original where
  key : Key
  header : Bytes
  nextHeaderAt : Option ℕ
  payload : Bytes
  headersRead : HeadersRead header nextHeaderAt
  unfragmented : Unfragmented header nextHeaderAt key.protocol (header.length + payload.length)

def ownFields : Option ℕ → List ℕ
  | none => [2, 3, 6, 7, 10, 11]
  | some n => [4, 5, n]

/-- The fragment has the datagram's headers, but for its own fields; of the IPv4 flags only the last is its own. -/
structure Original.Heads (o : Original) (f : Fragment) : Prop where
  nextHeaderAt : f.nextHeaderAt = o.nextHeaderAt
  length : f.headers.length = o.header.length
  flags : o.nextHeaderAt = none → f.headers[6]?.map (· &&& 0xc0) = o.header[6]?.map (· &&& 0xc0)
  same : ∀ i, i ∉ ownFields o.nextHeaderAt → f.headers[i]? = o.header[i]?

/-- The fragments, in the order of their offsets, are a split of the datagram; every offset is a multiple of eight. -/
structure Split (o : Original) (fs : List Fragment) : Prop where
  ne_nil : fs ≠ []
  key : ∀ f ∈ fs, f.key = o.key
  data : ∀ f ∈ fs, f.payload ≠ []
  tiles : Tiles offset extent 0 o.payload.length fs
  payload : fs.flatMap Fragment.payload = o.payload
  more : ∀ f ∈ fs, f.moreFragments = false ↔ f.extent = o.payload.length
  headers : ∀ f ∈ fs, f.offset = 0 → o.Heads f

/-- The datagram, an IPv4 one with its header checksum set right. -/
def Original.restored (o : Original) : Bytes :=
  match o.nextHeaderAt with
  | none => overwrite o.header 10 (toBeBytes (checksum [overwrite o.header 10 [0, 0]])) ++ o.payload
  | some _ => o.header ++ o.payload

/-! ### Rebuilding it -/

namespace Original

theorem length_payload_le (o : Original) : o.payload.length ≤ maxDatagramBytes := by
  have hread := o.headersRead
  have hwhole := o.unfragmented
  unfold maxDatagramBytes
  rcases hn : o.nextHeaderAt with _ | n
  · rw [hn] at hwhole
    have := hwhole.2.2.2.2
    omega
  rw [hn] at hread hwhole
  have h40 := hread.1
  have := hwhole.2.2.2
  omega

variable {o : Original}

theorem headD_of_heads (h : o.Heads f) : f.headers.headD 0 = o.header.headD 0 := by
  have h0 : 0 ∉ ownFields o.nextHeaderAt := by
    have hread := o.headersRead
    rcases hn : o.nextHeaderAt with _ | n
    · decide
    rw [hn] at hread
    unfold HeadersRead ipv6HeaderBytes at hread
    simp only [ownFields, mem_cons, not_mem_nil, or_false]
    omega
  rw [headD_eq_head?_getD, headD_eq_head?_getD, head?_eq_getElem?, head?_eq_getElem?, h.same 0 h0]

theorem ipv4Unsummed_of_heads (h : o.Heads f) (hn : o.nextHeaderAt = none) :
    ipv4Unsummed f.headers (o.header.length + o.payload.length) = overwrite o.header 10 [0, 0] := by
  have hread := o.headersRead
  have hwhole := o.unfragmented
  rw [hn] at hread hwhole
  obtain ⟨-, hlength, hflags, hoff, -⟩ := hwhole
  have h20 := hread.1
  have hlen := h.length
  apply ext_getElem?
  intro i
  have hzeros : (overwrite o.header 10 [0, 0])[i]? = if 10 ≤ i ∧ i < 12 then [(0 : UInt8), 0][i - 10]? else o.header[i]? :=
    getElem?_overwrite (show 10 + 2 ≤ o.header.length by omega) i
  rw [getElem?_ipv4Unsummed (by omega), hzeros]
  by_cases h10 : 10 ≤ i ∧ i < 12
  · rw [if_pos h10, if_pos h10]
  rw [if_neg h10, if_neg h10]
  by_cases h7 : i = 7
  · rw [if_pos h7, h7, hoff]
  rw [if_neg h7]
  by_cases h6 : i = 6
  · rw [if_pos h6, h6, h.flags hn, hflags]
  rw [if_neg h6]
  by_cases h2 : 2 ≤ i ∧ i < 4
  · rw [if_pos h2, ← hlength, getElem?_slice, if_pos (by omega)]
    congr 1
    omega
  rw [if_neg h2]
  refine h.same i ?_
  rw [hn]
  simp only [ownFields, mem_cons, not_mem_nil, or_false, not_or]
  omega

theorem ipv6Header_of_heads (h : o.Heads f) (hn : o.nextHeaderAt = some n) :
    overwrite (f.headers.set n o.key.protocol) 4
      (toBeBytes (o.header.length + o.payload.length - ipv6HeaderBytes)) = o.header := by
  have hread := o.headersRead
  have hwhole := o.unfragmented
  rw [hn] at hread hwhole
  obtain ⟨-, hlength, hproto, -⟩ := hwhole
  obtain ⟨h40, hlt, hplace⟩ := hread
  unfold ipv6HeaderBytes at h40 hplace
  have hlen := h.length
  apply ext_getElem?
  intro i
  rw [getElem?_overwrite (by rw [length_set, length_toBeBytes]; omega), length_toBeBytes]
  by_cases h4 : 4 ≤ i ∧ i < 4 + 2
  · rw [if_pos h4, ← hlength, getElem?_slice, if_pos (by omega)]
    congr 1
    omega
  rw [if_neg h4]
  by_cases hi : i = n
  · rw [hi, getElem?_set_self (by omega), hproto]
  rw [getElem?_set_ne (fun h => hi h.symm)]
  refine h.same i ?_
  rw [hn]
  simp only [ownFields, mem_cons, not_mem_nil, or_false]
  omega

/-- **The headers of the first fragment and the payload rebuild the datagram.** -/
theorem rebuild_of_heads (h : o.Heads f) :
    rebuild f.headers f.nextHeaderAt o.key.protocol o.payload = some o.restored := by
  have hread := o.headersRead
  have hwhole := o.unfragmented
  have hsize : (f.headers ++ o.payload).length = o.header.length + o.payload.length := by
    rw [length_append, h.length]
  have hhead : (f.headers ++ o.payload).headD 0 = o.header.headD 0 := by
    have hne : f.headers ≠ [] := by
      rw [← length_pos_iff, h.length]
      rcases hn : o.nextHeaderAt with _ | n
      · rw [hn] at hread
        have := hread.1
        omega
      rw [hn] at hread
      have := hread.2.1
      omega
    rw [← headD_of_heads h]
    cases hf : f.headers with
    | nil => exact absurd hf hne
    | cons b bs => rfl
  have hfread := f.headersRead
  unfold rebuild restored
  dsimp only
  rw [hsize, hhead]
  rw [h.nextHeaderAt] at hfread ⊢
  cases hn : o.nextHeaderAt with
  | none =>
    rw [hn] at hread hwhole hfread
    obtain ⟨hver, -, -, -, hfits⟩ := hwhole
    have h20 := hread.1
    have htwice := overwrite_overwrite (show 10 + [(0 : UInt8), 0].length ≤ o.header.length from by
      simp only [length_cons, length_nil]; omega)
      (length_toBeBytes (checksum [overwrite o.header 10 [0, 0]]))
    rw [if_neg (by rw [hver]; simp; omega), if_neg (by omega), rebuildIpv4_append hfread, hsize,
      ipv4Unsummed_of_heads h hn, htwice]
  | some n =>
    rw [hn] at hread hwhole hfread
    obtain ⟨hver, -, -, hfits⟩ := hwhole
    obtain ⟨h40, hlt, -⟩ := hread
    dsimp only
    rw [if_neg (by rw [hver]; simp; omega), if_neg (by omega), if_neg (by omega), rebuildIpv6_append hfread, hsize,
      ipv6Header_of_heads h hn]

end Original

/-! ### The fragments of a split -/

theorem Fragment.offset_le_extent (f : Fragment) : f.offset ≤ f.extent := Nat.le_add_right _ _

theorem tiles_blocks : ∀ {a : ℕ} {fs : List Fragment}, a % 8 = 0 →
    Tiles offset extent a n fs → (∀ f ∈ fs, f.payload ≠ []) → Tiles firstBlock endBlock (a / 8) ((n + 7) / 8) fs
  | a, [], ha, ht, _ => by
    have h : a = n := ht
    show a / 8 = (n + 7) / 8
    omega
  | a, [f], _, ht, hdata => by
    have hpos := length_pos_iff.mpr (hdata f mem_cons_self)
    have hend : f.extent = n := ht.2
    refine ⟨by rw [← ht.1]; rfl, ?_⟩
    show f.endBlock = (n + 7) / 8
    unfold endBlock lastBlock
    have hext : f.extent = f.offset + f.payload.length := rfl
    omega
  | a, f :: g :: fs, _, ht, hdata => by
    have hpos := length_pos_iff.mpr (hdata f mem_cons_self)
    have hnext : g.offset = f.extent := ht.2.1
    have haligned := g.aligned
    have ih := tiles_blocks (by omega) ht.2 fun x hx => hdata x (mem_cons_of_mem _ hx)
    have hext : f.extent = f.offset + f.payload.length := rfl
    have hend : f.endBlock = f.extent / 8 := by
      unfold endBlock lastBlock
      omega
    refine ⟨by rw [← ht.1]; rfl, ?_⟩
    rw [hend]
    exact ih

theorem extent_of_tiles : ∀ {a : ℕ} {fs : List Fragment}, Tiles offset extent a n fs →
    ∀ f ∈ fs, f.extent = n ∨ f.extent % 8 = 0
  | _, [], _ => nofun
  | _, [f], ht => fun g hg => by
    rw [mem_singleton.mp hg]
    exact .inl ht.2
  | _, f :: g :: fs, ht => fun x hx => by
    rcases mem_cons.mp hx with rfl | hx
    · have hnext : g.offset = x.extent := ht.2.1
      exact .inr (hnext ▸ g.aligned)
    · exact extent_of_tiles ht.2 x hx

namespace Split

variable {o : Original} {fs : List Fragment}

theorem extent_le (h : Split o fs) (hf : f ∈ fs) : f.extent ≤ o.payload.length :=
  (h.tiles.mem (fun f _ => f.offset_le_extent) f hf).2

theorem acceptable (h : Split o fs) (hf : f ∈ fs) : f.Acceptable := by
  have hext := h.extent_le hf
  have hmax := o.length_payload_le
  rintro (hempty | hlong | ⟨hmore, hodd⟩)
  · exact h.data f hf hempty
  · omega
  · rcases extent_of_tiles h.tiles f hf with hend | hmod
    · rw [(h.more f hf).mpr hend] at hmore
      cases hmore
    · have haligned := f.aligned
      unfold extent at hmod
      omega

theorem tiles_blocks (h : Split o fs) : Tiles firstBlock endBlock 0 ((o.payload.length + 7) / 8) fs :=
  L3.tiles_blocks rfl h.tiles h.data

theorem firstBlock_le (h : Split o fs) : ∀ f ∈ fs, f.firstBlock ≤ f.endBlock :=
  fun _ hf => le_of_lt (Fragment.firstBlock_lt_endBlock (h.acceptable hf))

theorem points_eq (h : Split o fs) : points firstBlock endBlock fs = (o.payload.length + 7) / 8 :=
  h.tiles_blocks.points_add h.firstBlock_le

theorem exists_last (h : Split o fs) : ∃ last ∈ fs, last.moreFragments = false ∧ last.extent = o.payload.length := by
  have hend : ∀ {n a : ℕ} {fs : List Fragment}, fs ≠ [] → Tiles offset extent a n fs →
      ∃ last ∈ fs, last.extent = n := by
    intro n a fs hne ht
    induction fs generalizing a with
    | nil => exact absurd rfl hne
    | cons f fs ih =>
      rcases fs with _ | ⟨g, fs⟩
      · exact ⟨f, mem_cons_self, ht.2⟩
      obtain ⟨last, hlast, hn⟩ := ih (cons_ne_nil g fs) ht.2
      exact ⟨last, mem_cons_of_mem _ hlast, hn⟩
  obtain ⟨last, hlast, hn⟩ := hend h.ne_nil h.tiles
  exact ⟨last, hlast, (h.more last hlast).mpr hn, hn⟩

theorem exists_first (h : Split o fs) : ∃ first ∈ fs, first.offset = 0 := by
  have htiles := h.tiles
  rcases hfs : fs with _ | ⟨first, rest⟩
  · exact absurd hfs h.ne_nil
  rw [hfs] at htiles
  exact ⟨first, mem_cons_self, htiles.1⟩

end Split

/-! ### Receiving them -/

/-- A pending datagram that has received the fragments `acc` of a split, and holds no more than they gave. -/
structure Awaiting (k : Key) (acc : List Fragment) (p : Pending) : Prop extends Assembled k acc p where
  healthy : p.poisoned = false
  short : ∀ n, (∀ f ∈ acc, f.extent ≤ n) → p.data.length ≤ n

theorem awaiting_new (k : Key) (e : Expiry) : Awaiting k [] (Pending.new e) :=
  ⟨assembled_new k e, rfl, fun n _ => Nat.zero_le n⟩

theorem Awaiting.withExpiry (h : Awaiting k acc p) (e : Expiry) :
    Awaiting k acc { p with expiry := e } := ⟨h.toAssembled.withExpiry e, h.healthy, h.short⟩

section

variable {o : Original} {fs acc rest : List Fragment} {f : Fragment} {p : Pending}

theorem isComplete_iff (hsplit : Split o fs) (h : Assembled o.key acc p) (hperm : (acc ++ rest).Perm fs) :
    p.isComplete = true ↔ rest = [] := by
  have hsum : points firstBlock endBlock acc + points firstBlock endBlock rest =
      (o.payload.length + 7) / 8 := by
    rw [← hsplit.points_eq]
    unfold points
    rw [← sum_append, ← map_append]
    exact (hperm.map _).sum_eq
  have htotal : ∀ t, p.total = some t → t = o.payload.length := by
    intro t ht
    obtain ⟨last, hlast, hmore, hext⟩ := h.last_of_total t ht
    rw [← hext]
    exact (hsplit.more last (hperm.subset (mem_append_left _ hlast))).mp hmore
  constructor
  · intro hc
    unfold Pending.isComplete at hc
    rcases ht : p.total with _ | t
    · rw [ht] at hc
      cases hc
    rw [ht] at hc
    have hcount := of_decide_eq_true hc
    rw [h.count, htotal t ht] at hcount
    rcases hrest : rest with _ | ⟨g, gs⟩
    · rfl
    have hg : g ∈ fs := hperm.subset (mem_append_right _ (by rw [hrest]; exact mem_cons_self))
    have hlt := Fragment.firstBlock_lt_endBlock (hsplit.acceptable hg)
    rw [hrest] at hsum
    simp only [points, map_cons, sum_cons] at hsum hcount
    omega
  · rintro rfl
    obtain ⟨last, hlast, hmore, hext⟩ := hsplit.exists_last
    have hmem : last ∈ acc := by simpa using hperm.symm.subset hlast
    have ht := h.total_of_last last hmem hmore
    unfold Pending.isComplete
    rw [ht]
    refine decide_eq_true ?_
    rw [h.count, hext]
    simpa [points] using hsum

/-- **A fragment of a split is accepted**, and completes the datagram if it is the last to come. -/
theorem Awaiting.receive (hsplit : Split o fs) (h : Awaiting o.key acc p) (hperm : (acc ++ f :: rest).Perm fs) :
    Awaiting o.key (acc ++ [f]) (p.receive f).1 ∧ (p.receive f).2 = if rest = [] then .complete else .pending := by
  have hf : f ∈ fs := hperm.subset (mem_append_right _ mem_cons_self)
  have hacc : ∀ g ∈ acc, g ∈ fs := fun g hg => hperm.subset (mem_append_left _ hg)
  have hok := hsplit.acceptable hf
  have hcontr : p.contradicts f = false := by
    unfold Pending.contradicts
    rcases ht : p.total with _ | t
    · rfl
    obtain ⟨last, hlast, hmore, rfl⟩ := h.last_of_total t ht
    have hend := (hsplit.more last (hacc last hlast)).mp hmore
    have hle := hsplit.extent_le hf
    have hmore' := hsplit.more f hf
    rw [hend, Bool.or_eq_false_iff]
    refine ⟨?_, decide_eq_false (by omega)⟩
    cases hm : f.moreFragments with
    | true => rfl
    | false => simpa using hmore'.mp hm
  have hapart : ∀ g ∈ acc, Apart firstBlock endBlock g f := by
    have hpairs := hperm.symm.pairwise (hsplit.tiles_blocks.apart hsplit.firstBlock_le) Apart.symm
    intro g hg
    exact (pairwise_append.mp hpairs).2.2 g hg f mem_cons_self
  have hovl : p.overlaps f = false := by
    refine any_eq_false.mpr fun b hb hrecv => ?_
    rw [mem_range'_1] at hb
    have hlast := Fragment.lastBlock_lt hok
    obtain ⟨g, hg, hbg⟩ := (h.received b (by omega)).mp hrecv
    have := hapart g hg
    unfold Apart endBlock at this
    omega
  have hlen : (p.store f).data.length = max p.data.length f.extent := p.length_store_data f
  have hhealthy : (p.store f).poisoned = false := by
    rw [p.store_eq f]
    exact h.healthy
  have hshort : ∀ n, (∀ g ∈ acc ++ [f], g.extent ≤ n) → (p.store f).data.length ≤ n := by
    intro n hn
    rw [hlen]
    exact max_le (h.short n fun g hg => hn g (mem_append_left _ hg))
      (hn f (mem_append_right _ (mem_singleton.mpr rfl)))
  have hperm' : (acc ++ [f] ++ rest).Perm fs := by rwa [append_assoc]
  have hset : ∀ q, Assembled o.key (acc ++ [f]) q → q.settled = if rest = [] then .complete else .pending := by
    intro q hq
    unfold Pending.settled
    rw [if_congr (isComplete_iff hsplit hq hperm') rfl rfl]
  unfold Pending.receive
  rw [if_neg (by rw [h.healthy]; decide), if_neg (by rw [hcontr]; decide), if_neg (by rw [hovl]; decide)]
  cases hm : f.moreFragments with
  | true =>
    have hsto := h.toAssembled.store_more (hsplit.key f hf) hok hm hcontr hovl
    exact ⟨⟨hsto, hhealthy, hshort⟩, hset _ hsto⟩
  | false =>
    have hend := (hsplit.more f hf).mp hm
    have hfits : (p.store f).data.length ≤ f.extent := by
      refine hshort _ fun g hg => ?_
      rw [hend]
      rcases mem_append.mp hg with hg | hg
      · exact hsplit.extent_le (hacc g hg)
      · rw [mem_singleton.mp hg]
        exact hsplit.extent_le hf
    rw [if_neg (by decide), if_neg (by omega)]
    have hsto := h.toAssembled.store_last (hsplit.key f hf) hok hm hcontr hovl hfits
    exact ⟨⟨hsto, hhealthy, hshort⟩, hset _ hsto⟩

theorem rebuild_complete (hsplit : Split o fs) (h : Assembled o.key acc p) (hperm : acc.Perm fs) :
    rebuild p.headers p.nextHeaderAt o.key.protocol (p.data.take (p.total.getD 0)) = some o.restored := by
  obtain ⟨first, hfirst, hzero⟩ := hsplit.exists_first
  obtain ⟨last, hlast, hmore, hext⟩ := hsplit.exists_last
  obtain ⟨hhdrs, hnext⟩ := h.headers first (hperm.symm.subset hfirst) hzero
  have htotal := h.total_of_last last (hperm.symm.subset hlast) hmore
  have hdata : p.data.take o.payload.length = o.payload := by
    have hslice := slice_eq_flatMap hsplit.tiles fun f hf => h.bytes f (hperm.symm.subset hf)
    rwa [hsplit.payload] at hslice
  rw [hhdrs, hnext, htotal, Option.getD_some, hext, hdata]
  exact Original.rebuild_of_heads (hsplit.headers first hfirst hzero)

end

/-! ### The reassembler -/

namespace Reassembler

def outcomes (r : Reassembler) : List (Fragment × Instant) → List (Key × PushOutcome)
  | [] => []
  | (f, now) :: pushes => (f.key, (r.push f now).2) :: (r.push f now).1.outcomes pushes

variable (r : Reassembler)

def outcomesOf (k : Key) (pushes : List (Fragment × Instant)) : List PushOutcome :=
  ((r.outcomes pushes).filter (fun outcome => outcome.1 = k)).map Prod.snd

def ofKey (k : Key) (pushes : List (Fragment × Instant)) : List Fragment :=
  (pushes.map Prod.fst).filter (fun f => f.key = k)

def pushed (push : Fragment × Instant) : Reassembler := (r.push push.1 push.2).1

def HasRoom (push : Fragment × Instant) : Prop := ¬ r.Full push.1.key

theorem push_eq_take {r : Reassembler} (hok : f.Acceptable) (hroom : ¬ r.Full f.key) :
    r.push f now = r.take f now := by
  unfold push
  rw [if_neg (not_not.mpr hok), if_neg hroom]

theorem lookup_push_of_ne {r : Reassembler} (hne : f.key ≠ k)
    (hroom : ¬ r.Full f.key) : (r.push f now).1.pending.lookup k = r.pending.lookup k := by
  by_cases hok : f.Acceptable
  · rw [push_eq_take hok hroom]
    obtain ⟨-, -, hother, -⟩ := r.take_spec f now
    exact hother k hne.symm
  · unfold push
    rw [if_pos hok]
    rfl

/-- The reassembler has received the fragments `acc` of the key, and keeps them. -/
def Holds (k : Key) (acc : List Fragment) : Prop :=
  (r.pending.lookup k = none ∧ acc = []) ∨ ∃ p, r.pending.lookup k = some p ∧ Awaiting k acc p

theorem Holds.opened {r : Reassembler} (h : r.Holds k acc) (hp : r.Opened k p) : Awaiting k acc p := by
  rcases hp with ⟨p₀, e, hlook, rfl⟩ | ⟨hlook, e, rfl⟩
  · rcases h with ⟨hnone, -⟩ | ⟨q, hq, hawt⟩
    · rw [hlook] at hnone
      cases hnone
    · rw [hlook] at hq
      cases hq
      exact hawt.withExpiry e
  · rcases h with ⟨-, rfl⟩ | ⟨q, hq, -⟩
    · exact awaiting_new k e
    · rw [hlook] at hq
      cases hq

theorem Holds.push {o : Original} {fs acc rest : List Fragment} {f : Fragment} {r : Reassembler} {now : Instant}
    (hsplit : Split o fs) (h : r.Holds o.key acc) (hperm : (acc ++ f :: rest).Perm fs) (hroom : ¬ r.Full f.key) :
    if rest = [] then (r.push f now).2 = .complete o.restored
    else (r.push f now).2 = .pending ∧ (r.push f now).1.Holds o.key (acc ++ [f]) := by
  have hf : f ∈ fs := hperm.subset (mem_append_right _ mem_cons_self)
  have hkey := hsplit.key f hf
  rw [push_eq_take (hsplit.acceptable hf) hroom]
  obtain ⟨p, hopen, -, hcases⟩ := r.take_spec f now
  rw [hkey] at hopen hcases
  obtain ⟨hawt, hrecv⟩ := (h.opened hopen).receive hsplit hperm
  split_ifs with hrest
  · rw [if_pos hrest] at hrecv
    rw [hrest] at hperm
    rcases hcases with ⟨hdisc, -⟩ | ⟨hpend, -⟩ | ⟨-, -, -, hpkt⟩
    · rw [hrecv] at hdisc
      cases hdisc
    · rw [hrecv] at hpend
      cases hpend
    · exact (hpkt _).mpr (rebuild_complete hsplit hawt.toAssembled hperm)
  · rw [if_neg hrest] at hrecv
    rcases hcases with ⟨hdisc, -⟩ | ⟨-, hout, hlook⟩ | ⟨hcomp, -⟩
    · rw [hrecv] at hdisc
      cases hdisc
    · exact ⟨hout, .inr ⟨_, hlook, hawt⟩⟩
    · rw [hrecv] at hcomp
      cases hcomp

theorem outcomesOf_cons (k : Key) (f : Fragment) (now : Instant) (pushes : List (Fragment × Instant)) :
    r.outcomesOf k ((f, now) :: pushes) =
      (if f.key = k then [(r.push f now).2] else []) ++ (r.push f now).1.outcomesOf k pushes := by
  unfold outcomesOf
  rw [outcomes]
  by_cases hk : f.key = k <;> simp [hk]

theorem ofKey_cons : ofKey k ((f, now) :: pushes) = (if f.key = k then [f] else []) ++ ofKey k pushes := by
  unfold ofKey
  by_cases hk : f.key = k <;> simp [hk]

theorem outcomesOf_of_none : ∀ {pushes : List (Fragment × Instant)} (r : Reassembler), ofKey k pushes = [] →
    r.outcomesOf k pushes = []
  | [], _, _ => rfl
  | (f, now) :: pushes, r, h => by
    rw [ofKey_cons, append_eq_nil_iff] at h
    have hne : f.key ≠ k := fun hk => by
      rw [if_pos hk] at h
      cases h.1
    rw [outcomesOf_cons, if_neg hne, nil_append]
    exact outcomesOf_of_none _ h.2

theorem outcomesOf_rest (hsplit : Split o fs) :
    ∀ (pushes : List (Fragment × Instant)) (acc : List Fragment) (r : Reassembler), r.Holds o.key acc →
      (acc ++ ofKey o.key pushes).Perm fs → ofKey o.key pushes ≠ [] → Runs.Along pushed HasRoom r pushes →
        r.outcomesOf o.key pushes =
          List.replicate ((ofKey o.key pushes).length - 1) .pending ++ [.complete o.restored]
  | [], _, _, _, _, hne, _ => absurd rfl hne
  | (f, now) :: pushes, acc, r, hholds, hperm, hne, hroom => by
    obtain ⟨hroom, hrooms⟩ := hroom
    rw [ofKey_cons] at hperm hne ⊢
    rw [outcomesOf_cons]
    by_cases hk : f.key = o.key
    · rw [if_pos hk, singleton_append] at hperm
      have hpush := @Holds.push o fs acc _ f r now hsplit hholds hperm hroom
      rw [if_pos hk, if_pos hk, singleton_append, singleton_append, length_cons, Nat.add_sub_cancel]
      by_cases hrest : ofKey o.key pushes = []
      · rw [if_pos hrest] at hpush
        rw [hpush, hrest, outcomesOf_of_none _ hrest]
        rfl
      rw [if_neg hrest] at hpush
      have ih := outcomesOf_rest hsplit pushes (acc ++ [f]) _ hpush.2 (by rwa [append_assoc]) hrest hrooms
      have hpos := length_pos_iff.mpr hrest
      obtain ⟨n, hn⟩ : ∃ n, (ofKey o.key pushes).length = n + 1 := ⟨(ofKey o.key pushes).length - 1, by omega⟩
      rw [hpush.1, ih, hn, Nat.add_sub_cancel, replicate_succ]
      rfl
    · rw [if_neg hk, nil_append] at hperm hne
      rw [if_neg hk, if_neg hk, nil_append, nil_append]
      refine outcomesOf_rest hsplit pushes acc _ ?_ hperm hne hrooms
      unfold Holds
      rw [lookup_push_of_ne hk hroom]
      exact hholds

/-- **Reassembly is complete and does not depend on the order**: pushed in any order, among fragments of other keys,
the fragments of a split wait, but for the last to come, which gives the datagram. -/
theorem complete_split {o : Original} {fs : List Fragment} (hsplit : Split o fs) {r : Reassembler}
    (hnone : r.pending.lookup o.key = none) {pushes : List (Fragment × Instant)}
    (hperm : (ofKey o.key pushes).Perm fs) (hroom : Runs.Along pushed HasRoom r pushes) :
    r.outcomesOf o.key pushes = List.replicate (fs.length - 1) .pending ++ [.complete o.restored] := by
  have hne : ofKey o.key pushes ≠ [] := fun h => hsplit.ne_nil (by rw [h] at hperm; exact hperm.symm.eq_nil)
  rw [outcomesOf_rest hsplit pushes [] r (.inl ⟨hnone, rfl⟩) hperm hne hroom, hperm.length_eq]

def exampleOriginal : Original where
  key := (exampleFragment 0 true []).key
  header := [0x45, 0x00, 0x00, 0x1e, 0xbe, 0xef, 0x00, 0x00, 64, 17, 0xcf, 0xa8, 192, 0, 2, 1, 198, 51, 100, 2]
  nextHeaderAt := none
  payload := [1, 2, 3, 4, 5, 6, 7, 8, 9, 10]
  headersRead := by unfold HeadersRead; decide
  unfragmented := by unfold Unfragmented; decide

def exampleParts : List Fragment :=
  [exampleFragment 0 true [1, 2, 3, 4, 5, 6, 7, 8], exampleFragment 1 false [9, 10]]

theorem heads_exampleFragment : exampleOriginal.Heads (exampleFragment block more payload) where
  nextHeaderAt := rfl
  length := rfl
  flags _ := rfl
  same i hi := by
    by_cases hlt : i < 20
    · have hsame : ∀ j < 20, j ∉ ownFields none → exampleHeader[j]? = exampleOriginal.header[j]? := by decide
      exact hsame i hlt hi
    · have hlong : ∀ bytes : Bytes, bytes.length = 20 → bytes[i]? = none := fun bytes h =>
        getElem?_eq_none (by omega)
      rw [hlong _ rfl, hlong _ rfl]

theorem split_exampleParts : Split exampleOriginal exampleParts where
  ne_nil := by simp [exampleParts]
  key := by simp [exampleParts, exampleOriginal, exampleFragment, key]
  data := by simp [exampleParts, exampleFragment]
  tiles := ⟨rfl, rfl, rfl⟩
  payload := rfl
  more := by simp [exampleParts, exampleOriginal, exampleFragment, extent]
  headers f hf _ := by
    rcases mem_cons.mp hf with rfl | hf
    · exact heads_exampleFragment ..
    · rw [mem_singleton.mp hf]
      exact heads_exampleFragment ..

/-- The last fragment first. -/
theorem complete_exampleParts : (new (fromSecs 30) 4).outcomesOf exampleOriginal.key
      [(exampleFragment 1 false [9, 10], ofSecs 0), (exampleFragment 0 true [1, 2, 3, 4, 5, 6, 7, 8], ofSecs 1)] =
      [.pending, .complete (exampleOriginal.header ++ exampleOriginal.payload)] := by
  have hroom : Runs.Along pushed HasRoom (new (fromSecs 30) 4)
      [(exampleFragment 1 false [9, 10], ofSecs 0),
        (exampleFragment 0 true [1, 2, 3, 4, 5, 6, 7, 8], ofSecs 1)] :=
    ⟨by unfold HasRoom; decide +kernel, by unfold HasRoom; decide +kernel, trivial⟩
  have hrestored : exampleOriginal.restored = exampleOriginal.header ++ exampleOriginal.payload := by decide +kernel
  have hperm : (ofKey exampleOriginal.key [(exampleFragment 1 false [9, 10], ofSecs 0),
      (exampleFragment 0 true [1, 2, 3, 4, 5, 6, 7, 8], ofSecs 1)]).Perm exampleParts := List.Perm.swap ..
  rw [complete_split split_exampleParts rfl hperm hroom, hrestored]
  rfl

end Reassembler

end Boreas.L3
