import Boreas.Rebuild
import Boreas.Tiling

/-! # Reassembly never fabricates bytes

`Assembled k acc p` is the invariant of a pending datagram that is not poisoned: its bitmap, block count, data, total
and headers are what the accepted fragments `acc` make them.  When the block count reaches the total, the fragments
tile the datagram (`Assembled.tiles`).  `push_complete_genuine` is the result over whole runs. -/

namespace Boreas.L3

open List Runs Slices Sweep Tiling

theorem forall_mem_snoc {P : α → Prop} (h : ∀ x ∈ xs, P x) (hy : P y) : ∀ x ∈ xs ++ [y], P x :=
  forall_mem_append.mpr ⟨h, forall_mem_singleton.mpr hy⟩

namespace Fragment

variable {f : Fragment}

theorem payload_pos (h : f.Acceptable) : 0 < f.payload.length := by
  unfold Acceptable at h
  push Not at h
  exact length_pos_iff.mpr h.1

theorem extent_le (h : f.Acceptable) : f.extent ≤ maxDatagramBytes := by
  unfold Acceptable at h
  push Not at h
  exact h.2.1

theorem extent_mod (h : f.Acceptable) (hm : f.moreFragments = true) : f.extent % 8 = 0 := by
  unfold Acceptable at h
  push Not at h
  have h1 := h.2.2 hm
  have h2 := f.aligned
  unfold extent
  omega

theorem offset_eq (f : Fragment) : f.offset = 8 * f.firstBlock := by
  have := f.aligned
  unfold firstBlock
  omega

def endBlock (f : Fragment) : ℕ := f.lastBlock + 1

theorem endBlock_eq (h : f.Acceptable) : f.endBlock = (f.extent + 7) / 8 := by
  have := payload_pos h
  unfold endBlock lastBlock extent
  omega

theorem firstBlock_lt_endBlock (h : f.Acceptable) : f.firstBlock < f.endBlock := by
  have := payload_pos h
  unfold endBlock lastBlock firstBlock extent
  omega

theorem lastBlock_lt (h : f.Acceptable) : f.lastBlock < 64 * bitmapWords := by
  have := extent_le h
  unfold maxDatagramBytes at this
  unfold lastBlock bitmapWords
  omega

theorem extent_le_offset {g : Fragment} (hf : f.Acceptable) (h : f.endBlock ≤ g.firstBlock) :
    f.extent ≤ g.offset := by
  have h1 := endBlock_eq hf
  have h2 := g.offset_eq
  omega

end Fragment

open Fragment hiding key

/-! ### The invariant of a pending datagram -/

structure Assembled (k : Key) (acc : List Fragment) (p : Pending) : Prop where
  acceptable : ∀ f ∈ acc, f.key = k ∧ f.Acceptable
  apart : acc.Pairwise (Apart firstBlock endBlock)
  received : ∀ b < 64 * bitmapWords,
    p.blockReceived b = true ↔ ∃ f ∈ acc, f.firstBlock ≤ b ∧ b ≤ f.lastBlock
  count : p.receivedBlocks = points firstBlock endBlock acc
  extent_le : ∀ f ∈ acc, f.extent ≤ p.data.length
  bytes : ∀ f ∈ acc, slice p.data f.offset f.payload.length = f.payload
  total_le : ∀ t, p.total = some t → ∀ f ∈ acc, f.extent ≤ t
  total_of_last : ∀ f ∈ acc, f.moreFragments = false → p.total = some f.extent
  last_of_total : ∀ t, p.total = some t → ∃ f ∈ acc, f.moreFragments = false ∧ f.extent = t
  headers : ∀ f ∈ acc, f.offset = 0 → p.headers = f.headers ∧ p.nextHeaderAt = f.nextHeaderAt

theorem assembled_new (k : Key) (e : Expiry) : Assembled k [] (Pending.new e) := by
  refine ⟨?_, List.Pairwise.nil, ?_, rfl, ?_, ?_, ?_, ?_, ?_, ?_⟩ <;>
    simp [Pending.new, Pending.blockReceived]

theorem Assembled.withExpiry (h : Assembled k acc p) (e : Expiry) : Assembled k acc { p with expiry := e } :=
  { h with }

theorem Assembled.apart_of_not_overlaps (h : Assembled k acc p) (hf : f.Acceptable) (hov : p.overlaps f = false) :
    ∀ g ∈ acc, Apart firstBlock endBlock g f := by
  intro g hg
  have hgok := (h.acceptable g hg).2
  by_contra hapart
  unfold Apart at hapart
  have hflt := firstBlock_lt_endBlock hf
  have hglt := firstBlock_lt_endBlock hgok
  unfold endBlock at hapart hflt hglt
  -- The later of the two first blocks belongs to both.
  have hb := lastBlock_lt hf
  have hcommon : p.blockReceived (max f.firstBlock g.firstBlock) = true :=
    (h.received _ (by omega)).mpr ⟨g, hg, by omega, by omega⟩
  have hmem : max f.firstBlock g.firstBlock ∈
      List.range' f.firstBlock (f.lastBlock + 1 - f.firstBlock) := by
    rw [mem_range'_1]
    omega
  unfold Pending.overlaps at hov
  rw [any_eq_false] at hov
  exact hov _ hmem hcommon

/-! ### Storing a fragment -/

namespace Pending

variable (p : Pending) (f : Fragment)

theorem store_eq : p.store f = { p with
    data := overwrite (p.widened f) f.offset f.payload
    received := p.received.setRange f.firstBlock f.lastBlock
    receivedBlocks := p.receivedBlocks + (f.lastBlock - f.firstBlock + 1)
    headers := if f.offset = 0 then f.headers else p.headers
    nextHeaderAt := if f.offset = 0 then f.nextHeaderAt else p.nextHeaderAt } := by
  unfold store markReceived inheritHeaders
  split_ifs <;> rfl

theorem store_data : (p.store f).data = overwrite (p.widened f) f.offset f.payload := rfl

theorem extent_le_widened : f.offset + f.payload.length ≤ (p.widened f).length := by
  unfold widened
  split_ifs with h
  · rw [length_resize]; exact le_refl _
  · exact not_lt.mp h

theorem length_widened : (p.widened f).length = max p.data.length f.extent := by
  unfold widened
  split_ifs with h
  · rw [length_resize]; omega
  · omega

theorem slice_widened (h : i + n ≤ p.data.length) : slice (p.widened f) i n = slice p.data i n := by
  unfold widened
  split_ifs with hlt
  · exact slice_resize 0 h (by omega)
  · rfl

theorem length_store_data : (p.store f).data.length = max p.data.length f.extent := by
  rw [store_data, length_overwrite (p.extent_le_widened f), length_widened]

end Pending

variable {acc : List Fragment} {p : Pending} {k : Key}

/-- Storing a fragment that is apart from the others and keeps to the total keeps the invariant, up to the
total it may give. -/
theorem Assembled.accept (h : Assembled k acc p)
    (hkey : f.key = k) (hf : f.Acceptable) (hapart : ∀ g ∈ acc, Apart firstBlock endBlock g f)
    (htotal_le : ∀ t, total = some t → ∀ g ∈ acc ++ [f], g.extent ≤ t)
    (htotal_of_last : ∀ g ∈ acc ++ [f], g.moreFragments = false → total = some g.extent)
    (hlast_of_total : ∀ t, total = some t → ∃ g ∈ acc ++ [f], g.moreFragments = false ∧ g.extent = t) :
    Assembled k (acc ++ [f]) { p.store f with total := total } := by
  have hroom := p.extent_le_widened f
  have hlen := p.length_store_data f
  refine ⟨forall_mem_snoc h.acceptable ⟨hkey, hf⟩, ?_, ?_, ?_, ?_, ?_, htotal_le, htotal_of_last, hlast_of_total, ?_⟩
  · exact pairwise_append.mpr ⟨h.apart, pairwise_singleton _ _, fun g hg => forall_mem_singleton.mpr (hapart g hg)⟩
  · intro b hb
    have hset : Pending.blockReceived { p.store f with total := total } b = true ↔
        (f.firstBlock ≤ b ∧ b ≤ f.lastBlock) ∨ p.blockReceived b = true := by
      unfold Pending.blockReceived
      rw [p.store_eq f]
      exact Bitmap.test_setRange p.received (lastBlock_lt hf) hb
    rw [hset, h.received b hb]
    simp [or_comm]
  · have hlt := firstBlock_lt_endBlock hf
    simp only [p.store_eq f, h.count]
    unfold points
    rw [map_append, sum_append]
    simp only [map_cons, map_nil, sum_singleton]
    unfold endBlock at hlt ⊢
    omega
  · refine forall_mem_snoc (fun g hg => ?_) (hlen ▸ le_max_right _ _)
    exact hlen ▸ le_max_of_le_left (h.extent_le g hg)
  · refine forall_mem_snoc (fun g hg => ?_) (slice_overwrite hroom)
    have hfar : g.offset + g.payload.length ≤ f.offset ∨ f.offset + f.payload.length ≤ g.offset := by
      rcases hapart g hg with hgf | hfg
      · exact .inl (extent_le_offset (h.acceptable g hg).2 hgf)
      · exact .inr (extent_le_offset hf hfg)
    rw [p.store_data f, slice_overwrite_of_disjoint hroom hfar, p.slice_widened f (h.extent_le g hg)]
    exact h.bytes g hg
  · simp only [p.store_eq f]
    refine forall_mem_snoc (fun g hg hzero => ?_) fun hzero => ?_
    · -- Two fragments at offset zero would overlap.
      have hne : f.offset ≠ 0 := by
        intro hf0
        have h1 := firstBlock_lt_endBlock hf
        have h2 := firstBlock_lt_endBlock (h.acceptable g hg).2
        have h3 : f.firstBlock = 0 := by unfold firstBlock; omega
        have h4 : g.firstBlock = 0 := by unfold firstBlock; omega
        rcases hapart g hg with hd | hd <;> omega
      rw [if_neg hne, if_neg hne]
      exact h.headers g hg hzero
    · rw [if_pos hzero, if_pos hzero]
      exact ⟨rfl, rfl⟩

/-! ### Receiving a fragment -/

theorem Assembled.store_more (h : Assembled k acc p)
    (hkey : f.key = k) (hf : f.Acceptable) (hmore : f.moreFragments = true)
    (hcon : p.contradicts f = false) (hov : p.overlaps f = false) : Assembled k (acc ++ [f]) (p.store f) := by
  have htotal : { p.store f with total := p.total } = p.store f := by rw [p.store_eq f]
  rw [← htotal]
  refine h.accept hkey hf (h.apart_of_not_overlaps hf hov) (fun t ht => forall_mem_snoc (h.total_le t ht) ?_)
    (forall_mem_snoc h.total_of_last (by simp [hmore])) fun t ht => ?_
  · simp only [Pending.contradicts, ht, Bool.or_eq_false_iff, decide_eq_false_iff_not, not_lt] at hcon
    exact hcon.2
  · obtain ⟨g, hg, hlast⟩ := h.last_of_total t ht
    exact ⟨g, mem_append_left _ hg, hlast⟩

theorem Assembled.store_last (h : Assembled k acc p)
    (hkey : f.key = k) (hf : f.Acceptable) (hlast : f.moreFragments = false)
    (hcon : p.contradicts f = false) (hov : p.overlaps f = false) (hlen : (p.store f).data.length ≤ f.extent) :
    Assembled k (acc ++ [f]) { p.store f with total := some f.extent } := by
  rw [p.length_store_data f] at hlen
  refine h.accept hkey hf (h.apart_of_not_overlaps hf hov) (fun t ht => ?_)
    (forall_mem_snoc (fun g hg hglast => ?_) fun _ => rfl) fun t ht => ?_
  · cases ht
    refine forall_mem_snoc (fun g hg => ?_) (le_refl _)
    have := h.extent_le g hg
    omega
  · have htotal := h.total_of_last g hg hglast
    simp only [Pending.contradicts, htotal, hlast, Bool.or_eq_false_iff, Bool.not_false, Bool.true_and,
      bne_eq_false_iff_eq] at hcon
    rw [hcon.1]
  · cases ht
    exact ⟨f, mem_append_right _ (mem_singleton.mpr rfl), hlast, rfl⟩

/-- What `receive` does: a discarded fragment poisons the datagram (or finds it poisoned), an accepted one joins
the others. -/
theorem receive_spec (hkey : f.key = k) (hf : f.Acceptable) (h : p.poisoned = false → Assembled k acc p) :
    ((p.receive f).2 = .discarded ∧ (p.receive f).1.poisoned = true) ∨
      ((p.receive f).2 = (p.receive f).1.settled ∧ Assembled k (acc ++ [f]) (p.receive f).1) := by
  unfold Pending.receive
  split_ifs with hpois hcon hov hmore hlen
  · exact .inl ⟨rfl, hpois⟩
  · exact .inl ⟨rfl, rfl⟩
  · exact .inl ⟨rfl, rfl⟩
  · refine .inr ⟨rfl, ?_⟩
    exact (h (by simpa using hpois)).store_more hkey hf hmore (by simpa using hcon) (by simpa using hov)
  · exact .inl ⟨rfl, rfl⟩
  · refine .inr ⟨rfl, ?_⟩
    exact (h (by simpa using hpois)).store_last hkey hf (by simpa using hmore) (by simpa using hcon)
      (by simpa using hov) (not_lt.mp hlen)

/-! ### The completed datagram -/

theorem tiles_bytes : ∀ {b : ℕ} {frs : List Fragment}, frs ≠ [] →
    Tiles firstBlock endBlock b ((total + 7) / 8) frs →
    (∀ f ∈ frs, f.Acceptable ∧ f.extent ≤ total ∧ (f.moreFragments = false → f.extent = total)) →
    Tiles offset extent (8 * b) total frs
  | _, [], hne, _, _ => absurd rfl hne
  | b, [f], _, ht, hfrs => by
    obtain ⟨hacc, hle, hlast⟩ := hfrs f mem_cons_self
    obtain ⟨hfirst, hend⟩ := ht
    have hend' : f.endBlock = (total + 7) / 8 := hend
    have hblocks := endBlock_eq hacc
    refine ⟨by rw [f.offset_eq, hfirst], ?_⟩
    show f.extent = total
    rcases hm : f.moreFragments with _ | _
    · exact hlast hm
    have hmod := extent_mod hacc hm
    omega
  | b, f :: g :: frs, _, ht, hfrs => by
    obtain ⟨hacc, hle, hlast⟩ := hfrs f mem_cons_self
    obtain ⟨hgacc, hgle, -⟩ := hfrs g (mem_cons_of_mem _ mem_cons_self)
    obtain ⟨hfirst, htail⟩ := ht
    have hgfirst : g.firstBlock = f.endBlock := htail.1
    have hblocks := endBlock_eq hacc
    have hgblocks := endBlock_eq hgacc
    have hglt := firstBlock_lt_endBlock hgacc
    have ih := tiles_bytes (cons_ne_nil g frs) htail (fun x hx => hfrs x (mem_cons_of_mem _ hx))
    -- A last fragment here would leave no block for the next one.
    have hm : f.moreFragments = true := by
      by_contra hm
      have := hlast (by simpa using hm)
      omega
    have hmod := extent_mod hacc hm
    have hbound : 8 * f.endBlock = f.extent := by omega
    rw [hbound] at ih
    exact ⟨by rw [f.offset_eq, hfirst], ih⟩

theorem slice_eq_flatMap : ∀ {a : ℕ} {frs : List Fragment},
    Tiles offset extent a n frs → (∀ f ∈ frs, slice data f.offset f.payload.length = f.payload) →
    slice data a (n - a) = frs.flatMap payload
  | a, [], ht, _ => by
    have ht' : a = n := ht
    subst ht'
    simp [slice]
  | a, f :: frs, ht, hbytes => by
    obtain ⟨hoff, htail⟩ := ht
    have hle := htail.le (fun g _ => Nat.le_add_right g.offset g.payload.length)
    have ih := slice_eq_flatMap htail (fun g hg => hbytes g (mem_cons_of_mem _ hg))
    have hf := hbytes f mem_cons_self
    have hext : f.extent = a + f.payload.length := by rw [← hoff]; rfl
    have hsplit : n - a = f.payload.length + (n - f.extent) := by omega
    rw [flatMap_cons, ← ih, hsplit, slice_add, hext]
    rw [hoff] at hf
    rw [hf]

theorem Assembled.tiles (h : Assembled k acc p) (hc : p.isComplete = true) :
    ∃ total frs, p.total = some total ∧ frs.Perm acc ∧ Tiles offset extent 0 total frs ∧
      (∃ last ∈ frs, last.moreFragments = false ∧ last.extent = total) ∧
      p.data.take total = frs.flatMap payload := by
  unfold Pending.isComplete at hc
  rcases ht : p.total with _ | total
  · rw [ht] at hc; cases hc
  rw [ht] at hc
  have hcount : points firstBlock endBlock acc = (total + 7) / 8 := by
    rw [← h.count]
    exact of_decide_eq_true hc
  have hin : ∀ f ∈ acc, f.firstBlock < f.endBlock ∧ f.endBlock ≤ (total + 7) / 8 := by
    intro f hf
    have hacc := (h.acceptable f hf).2
    have hle := h.total_le total ht f hf
    have hblocks := endBlock_eq hacc
    exact ⟨firstBlock_lt_endBlock hacc, by omega⟩
  obtain ⟨frs, hperm, htiles⟩ := tiles_of_sum_eq h.apart hin hcount
  obtain ⟨last, hlast, hfinal⟩ := h.last_of_total total ht
  have hlast' : last ∈ frs := hperm.mem_iff.mpr hlast
  have hbytes : Tiles offset extent 0 total frs := by
    have hfrs : ∀ f ∈ frs, f.Acceptable ∧ f.extent ≤ total ∧ (f.moreFragments = false → f.extent = total) := by
      intro f hf
      have hf' := hperm.mem_iff.mp hf
      refine ⟨(h.acceptable f hf').2, h.total_le total ht f hf', fun hm => ?_⟩
      have := h.total_of_last f hf' hm
      rw [ht] at this
      exact (Option.some.inj this).symm
    exact tiles_bytes (ne_nil_of_mem hlast') htiles hfrs
  refine ⟨total, frs, rfl, hperm, hbytes, ⟨last, hlast', hfinal⟩, ?_⟩
  exact slice_eq_flatMap hbytes fun f hf => h.bytes f (hperm.mem_iff.mp hf)

/-- The packet is made of the fragments `frs`: they lie end to end from `0` to the end of a last fragment, and
the packet is the rebuilt header of the first one followed by their payloads. -/
def Genuine (frs : List Fragment) (packet : Bytes) : Prop :=
  ∃ first rest total header, frs = first :: rest ∧
    Tiles offset extent 0 total frs ∧
    (∃ last ∈ frs, last.moreFragments = false ∧ last.extent = total) ∧
    HeaderRebuilt first.headers first.nextHeaderAt first.protocol header packet.length ∧
    packet = header ++ frs.flatMap payload

theorem Assembled.genuine (h : Assembled k acc p) (hc : p.isComplete = true)
    (hp : rebuild p.headers p.nextHeaderAt k.protocol (p.data.take (p.total.getD 0)) = some packet) :
    ∃ frs, frs.Perm acc ∧ Genuine frs packet := by
  obtain ⟨total, frs, htotal, hperm, htiles, hlast, hdata⟩ := h.tiles hc
  rw [htotal, Option.getD_some, hdata] at hp
  rcases hfrs : frs with _ | ⟨first, rest⟩
  · obtain ⟨last, hmem, -⟩ := hlast
    rw [hfrs] at hmem
    cases hmem
  have hmem : first ∈ acc := hperm.mem_iff.mp (by rw [hfrs]; exact mem_cons_self)
  have hzero : first.offset = 0 := by rw [hfrs] at htiles; exact htiles.1
  have hproto : k.protocol = first.protocol := by rw [← (h.acceptable first hmem).1]; rfl
  obtain ⟨hhdrs, hnext⟩ := h.headers first hmem hzero
  rw [hhdrs, hnext, hproto] at hp
  obtain ⟨header, heq, hspec⟩ := rebuild_spec first.headersRead hp
  exact ⟨frs, hperm, first, rest, total, header, hfrs, htiles, hlast, hspec, heq⟩

/-! ### The reassembler -/

def OnlyExpired (s t : Table Key Pending) : Prop :=
  ∀ k p', t.lookup k = some p' → ∃ p e, s.lookup k = some p ∧ p' = { p with expiry := e }

theorem OnlyExpired.refl (s : Table Key Pending) : OnlyExpired s s := fun _ p' h => ⟨p', p'.expiry, h, rfl⟩

theorem OnlyExpired.trans (h₁ : OnlyExpired s t) (h₂ : OnlyExpired t u) : OnlyExpired s u := by
  intro k p'' h
  obtain ⟨p', e', hp', rfl⟩ := h₂ k p'' h
  obtain ⟨p, e, hp, rfl⟩ := h₁ k p' hp'
  exact ⟨p, e', hp, rfl⟩

theorem Sweep.visit_onlyExpired (now : Instant) (s : Sweep) (key : Key) :
    OnlyExpired s.pending (visit now s key).pending := by
  unfold visit
  rcases hlook : s.pending.lookup key with _ | p
  · exact OnlyExpired.refl _
  dsimp only
  split_ifs with hdue
  · intro k p' hk
    rw [Table.lookup_erase_eq] at hk
    split_ifs at hk
    exact ⟨p', p'.expiry, hk, rfl⟩
  exact Table.forall_lookup_insert (P := _) _ ⟨p, _, hlook, rfl⟩ fun k p' hk => ⟨p', p'.expiry, hk, rfl⟩

theorem Sweep.foldl_visit_onlyExpired (now : Instant) : ∀ (keys : List Key) (s : Sweep),
    OnlyExpired s.pending (keys.foldl (visit now) s).pending
  | [], _ => OnlyExpired.refl _
  | key :: keys, s => (s.visit_onlyExpired now key).trans (foldl_visit_onlyExpired now keys _)

theorem Sweep.drain_onlyExpired (now : Instant) : ∀ (es : Expirations) (s : Sweep),
    OnlyExpired s.pending (drain now es s).2.pending
  | [], _ => OnlyExpired.refl _
  | (d, keys) :: es, s => by
    rw [drain]
    split_ifs
    · exact (foldl_visit_onlyExpired now keys s).trans (drain_onlyExpired now es _)
    · exact OnlyExpired.refl _

namespace Reassembler

variable (r : Reassembler)

theorem expire_onlyExpired (now : Instant) : OnlyExpired r.pending (r.expire now).1.pending :=
  drain_onlyExpired now r.expirations ⟨r.pending, 0, []⟩

def Opened (key : Key) (p : Pending) : Prop :=
  (∃ p₀ e, r.pending.lookup key = some p₀ ∧ p = { p₀ with expiry := e }) ∨
    (r.pending.lookup key = none ∧ ∃ e, p = Pending.new e)

theorem take_spec (f : Fragment) (now : Instant) :
    ∃ p, r.Opened f.key p ∧ (∀ k, k ≠ f.key → (r.take f now).1.pending.lookup k = r.pending.lookup k) ∧
      (((p.receive f).2 = .discarded ∧ (r.take f now).2 = .discarded ∧
          (r.take f now).1.pending.lookup f.key = some (p.receive f).1) ∨
        ((p.receive f).2 = .pending ∧ (r.take f now).2 = .pending ∧
          (r.take f now).1.pending.lookup f.key = some (p.receive f).1) ∨
        ((p.receive f).2 = .complete ∧ (r.take f now).2 ≠ .pending ∧ (r.take f now).1.pending.lookup f.key = none ∧
          ∀ pkt, (r.take f now).2 = .complete pkt ↔
            rebuild (p.receive f).1.headers (p.receive f).1.nextHeaderAt f.key.protocol
              ((p.receive f).1.data.take ((p.receive f).1.total.getD 0)) = some pkt)) := by
  obtain ⟨due, hdl⟩ : ∃ d, (now.checkedAdd r.timeout).getD now = d := ⟨_, rfl⟩
  obtain ⟨hsame, hopen⟩ : (r.entry f.key due).1.pending = r.pending ∧
      r.Opened f.key
        { (r.entry f.key due).2 with expiry := { (r.entry f.key due).2.expiry with at_ := due } } := by
    unfold entry Opened
    cases hlook : r.pending.lookup f.key with
    | some p => exact ⟨rfl, .inl ⟨p, _, rfl, rfl⟩⟩
    | none => exact ⟨rfl, .inr ⟨rfl, ⟨due, due⟩, rfl⟩⟩
  refine ⟨_, hopen, ?_⟩
  unfold take
  rw [hdl]
  dsimp only
  generalize ({ (r.entry f.key due).2 with
    expiry := { (r.entry f.key due).2.expiry with at_ := due } } : Pending) = p
  rcases hrec : p.receive f with ⟨p', out⟩
  cases out with
  | discarded =>
    rw [hsame]
    exact ⟨fun k hk => AList.lookup_insert_ne hk, .inl ⟨rfl, rfl, AList.lookup_insert _⟩⟩
  | pending =>
    rw [hsame]
    exact ⟨fun k hk => AList.lookup_insert_ne hk, .inr (.inl ⟨rfl, rfl, AList.lookup_insert _⟩)⟩
  | complete =>
    dsimp only [finish]
    rw [hsame]
    have hother : ∀ k, k ≠ f.key → AList.lookup k ((r.pending.insert f.key p').erase f.key) = r.pending.lookup k :=
      fun k hk => by rw [AList.lookup_erase_ne hk, AList.lookup_insert_ne hk]
    cases hreb : rebuild p'.headers p'.nextHeaderAt f.key.protocol (p'.data.take (p'.total.getD 0)) with
    | some pkt =>
      refine ⟨hother, .inr (.inr ⟨rfl, by simp, AList.lookup_erase _ _, fun pkt' => ?_⟩)⟩
      rw [PushOutcome.complete.injEq, Option.some.injEq]
    | none =>
      exact ⟨hother, .inr (.inr ⟨rfl, by simp, AList.lookup_erase _ _, fun pkt' => by simp⟩)⟩

/-! ### Runs -/

def accepted (k : Key) : Op → List Fragment
  | .push f now => if f.key = k ∧ (r.push f now).2 = .pending then [f] else []
  | .expire _ => []

/-- One call, with the fragments of `k` accepted since `k` was last created: none while `k` is not pending. -/
def record (k : Key) (s : Reassembler × List Fragment) (op : Op) : Reassembler × List Fragment :=
  (s.1.step op, if (s.1.step op).pending.lookup k = none then [] else s.2 ++ s.1.accepted k op)

def acceptedSince (k : Key) (ops : List Op) : List Fragment :=
  (run (record k) (r, []) ops).2

/-- What is pending for `k`, unless it is poisoned, are the fragments `acc`. -/
def Accounts (pending : Table Key Pending) (k : Key) (acc : List Fragment) : Prop :=
  ∀ p, pending.lookup k = some p → p.poisoned = false → Assembled k acc p

/-- The invariant of one key along a run: the recorded fragments are those of the pending datagram, unless it is
poisoned. -/
def Recorded (k : Key) (s : Reassembler × List Fragment) : Prop :=
  (s.1.pending.lookup k = none → s.2 = []) ∧ Accounts s.1.pending k s.2

theorem assembled_of_opened {r : Reassembler} (hnone : r.pending.lookup key = none → acc = [])
    (hsome : Accounts r.pending key acc) (hp : r.Opened key p) (hpois : p.poisoned = false) : Assembled key acc p := by
  rcases hp with ⟨p₀, e, hlook, rfl⟩ | ⟨hlook, e, rfl⟩
  · exact (hsome p₀ hlook hpois).withExpiry e
  · rw [hnone hlook]
    exact assembled_new key e

theorem take_recorded {r : Reassembler} (hf : f.Acceptable) (hnone : k = f.key → r.pending.lookup k = none → acc = [])
    (hsome : Accounts r.pending k acc) : Accounts (r.take f now).1.pending k
      (acc ++ if f.key = k ∧ (r.take f now).2 = .pending then [f] else []) := by
  intro p hp hpois
  obtain ⟨q, hopen, hother, hcases⟩ := r.take_spec f now
  by_cases hk : k = f.key
  · subst hk
    have hq := receive_spec rfl hf (assembled_of_opened (hnone rfl) hsome hopen)
    rcases hcases with ⟨hrec, hout, hlook⟩ | ⟨hrec, hout, hlook⟩ | ⟨hrec, hout, hlook, -⟩
    · rw [hlook] at hp
      cases hp
      rcases hq with ⟨-, hq⟩ | ⟨hq, -⟩
      · rw [hpois] at hq
        cases hq
      · rw [hrec, Pending.settled] at hq
        split_ifs at hq
    · rw [hlook] at hp
      cases hp
      rcases hq with ⟨hq, -⟩ | ⟨-, hq⟩
      · rw [hrec] at hq
        cases hq
      · rw [if_pos ⟨rfl, hout⟩]
        exact hq
    · rw [hlook] at hp
      cases hp
  · rw [hother k hk] at hp
    rw [if_neg (fun h => hk h.1.symm), append_nil]
    exact hsome p hp hpois

theorem Accounts.of_onlyExpired (h : Accounts s k acc) (hexp : OnlyExpired s t) : Accounts t k acc := by
  intro p hp hpois
  obtain ⟨p₀, e, hp₀, rfl⟩ := hexp k p hp
  exact (h p₀ hp₀ hpois).withExpiry e

theorem push_cases (f : Fragment) (now : Instant) :
    ((r.push f now).2 = .discarded ∧ OnlyExpired r.pending (r.push f now).1.pending) ∨
      (f.Acceptable ∧ ∃ r', r.push f now = r'.take f now ∧ OnlyExpired r.pending r'.pending ∧
        (r' = r ∨ r.pending.lookup f.key = none)) := by
  by_cases hacc : f.Acceptable
  · by_cases hfull : r.Full f.key
    · by_cases hroom : Table.size (r.expire now).1.pending = (r.expire now).1.maxPending
      · refine .inl ?_
        simp only [push, hacc, hfull, hroom, not_true_eq_false, if_false, if_true]
        exact ⟨trivial, r.expire_onlyExpired now⟩
      · refine .inr ⟨hacc, (r.expire now).1, ?_, r.expire_onlyExpired now, .inr hfull.1⟩
        simp only [push, hacc, hfull, hroom, not_true_eq_false, if_false, if_true]
    · refine .inr ⟨hacc, r, ?_, OnlyExpired.refl _, .inl rfl⟩
      simp only [push, hacc, hfull, not_true_eq_false, if_false]
  · refine .inl ?_
    simp only [push, hacc, not_false_eq_true, if_true]
    exact ⟨trivial, OnlyExpired.refl _⟩

theorem Recorded.at_take (h : Recorded k s) {f : Fragment} (hexp : OnlyExpired s.1.pending r'.pending)
    (hr : r' = s.1 ∨ s.1.pending.lookup f.key = none) : (k = f.key → r'.pending.lookup k = none → s.2 = []) ∧
      Accounts r'.pending k s.2 := by
  refine ⟨fun hk hnone => ?_, h.2.of_onlyExpired hexp⟩
  rcases hr with rfl | hnone'
  · exact h.1 hnone
  · exact h.1 (hk ▸ hnone')

/-- **Step lemma**: every call keeps the invariant of every key. -/
theorem recorded_step (k : Key) (s : Reassembler × List Fragment) (op : Op) (h : Recorded k s) :
    Recorded k (record k s op) := by
  have hkept : Accounts (s.1.step op).pending k (s.2 ++ s.1.accepted k op) := by
    cases op with
    | expire now =>
      simp only [accepted, append_nil]
      exact h.2.of_onlyExpired (s.1.expire_onlyExpired now)
    | push f now =>
      rcases s.1.push_cases f now with ⟨hout, hexp⟩ | ⟨hacc, r', hpush, hexp, hr⟩
      · have hnil : s.1.accepted k (.push f now) = [] := by
          simp [accepted, hout]
        rw [hnil, append_nil]
        exact h.2.of_onlyExpired hexp
      · obtain ⟨hnone, hsome⟩ := h.at_take hexp hr
        simp only [step, accepted, hpush]
        exact take_recorded hacc hnone hsome
  unfold record Recorded
  refine ⟨fun hnone => if_pos hnone, fun p hp hpois => ?_⟩
  rw [if_neg (by rw [hp]; simp)]
  exact hkept p hp hpois

theorem run_record_fst (k : Key) : ∀ (ops : List Op) (s : Reassembler × List Fragment),
    (run (record k) s ops).1 = run step s.1 ops
  | [], _ => rfl
  | op :: ops, s => by rw [run_cons, run_record_fst k ops]; rfl

theorem recorded_run (timeout : Duration) (maxPending : ℕ+) (k : Key) (ops : List Op) :
    Recorded k (run (record k) (new timeout maxPending, []) ops) := by
  refine run_kept (recorded_step k) ops _ ?_
  exact ⟨fun _ => rfl, fun p hp => by simp [new] at hp⟩

/-- **Reassembly never fabricates bytes**: after every run, a completed packet is made of the completing
fragment and the fragments of its key accepted since that key was last created, all of them and nothing
else. -/
theorem push_complete_genuine (timeout : Duration) (maxPending : ℕ+) (ops : List Op) (f : Fragment) (now : Instant)
    (packet : Bytes) (h : ((run step (new timeout maxPending) ops).push f now).2 = .complete packet) :
    ∃ frs : List Fragment, frs.Perm (acceptedSince (new timeout maxPending) f.key ops ++ [f]) ∧
      (∀ g ∈ frs, g.key = f.key) ∧ Genuine frs packet := by
  have hrec := recorded_run timeout maxPending f.key ops
  rw [← run_record_fst f.key ops (new timeout maxPending, [])] at h
  rw [acceptedSince]
  generalize run (record f.key) (new timeout maxPending, []) ops = s at h hrec
  rcases s.1.push_cases f now with ⟨hout, -⟩ | ⟨hacc, r', hpush, hexp, hr⟩
  · rw [hout] at h
    cases h
  rw [hpush] at h
  obtain ⟨hnone, hsome⟩ := hrec.at_take hexp hr
  obtain ⟨q, hopen, -, hcases⟩ := r'.take_spec f now
  have hq := receive_spec rfl hacc (assembled_of_opened (hnone rfl) hsome hopen)
  rcases hcases with ⟨-, hout, -⟩ | ⟨-, hout, -⟩ | ⟨hcomp, -, -, hpkt⟩
  · rw [hout] at h
    cases h
  · rw [hout] at h
    cases h
  rcases hq with ⟨hq, -⟩ | ⟨hq, hasm⟩
  · rw [hcomp] at hq
    cases hq
  have hc : (q.receive f).1.isComplete = true := by
    by_contra hc
    rw [hcomp, Pending.settled, if_neg hc] at hq
    cases hq
  obtain ⟨frs, hperm, hgen⟩ := hasm.genuine hc ((hpkt packet).mp h)
  refine ⟨frs, hperm, fun g hg => (hasm.acceptable g (hperm.mem_iff.mp hg)).1, hgen⟩

def exampleHeader : Bytes :=
  [0x45, 0x00, 0x00, 0x1c, 0xbe, 0xef, 0x20, 0x00, 64, 17, 0, 0, 192, 0, 2, 1, 198, 51, 100, 2]

def exampleFragment (block : ℕ) (moreFragments : Bool) (payload : Bytes) : Fragment where
  source := .v4 0xc0000201
  destination := .v4 0xc6336402
  protocol := 17
  identification := 0xbeef
  offset := block * 8
  moreFragments := moreFragments
  payload := payload
  headers := exampleHeader
  nextHeaderAt := none
  aligned := by omega
  headersRead := by unfold HeadersRead exampleHeader; decide

/-- The last fragment first: the datagram is complete with the one at offset zero. -/
theorem push_complete_genuine_reordered :
    ∃ packet frs, ((run step (new (fromSecs 30) 4) [.push (exampleFragment 1 false [9, 10]) (Instant.ofSecs 0)]).push
        (exampleFragment 0 true [1, 2, 3, 4, 5, 6, 7, 8]) (Instant.ofSecs 1)).2 = .complete packet ∧
      frs.length = 2 ∧ Genuine frs packet := by
  have h : ((run step (new (fromSecs 30) 4) [.push (exampleFragment 1 false [9, 10]) (Instant.ofSecs 0)]).push
      (exampleFragment 0 true [1, 2, 3, 4, 5, 6, 7, 8]) (Instant.ofSecs 1)).2 =
      .complete ([0x45, 0x00, 0x00, 0x1e, 0xbe, 0xef, 0x00, 0x00, 64, 17, 0xcf, 0xa8, 192, 0, 2, 1, 198, 51, 100, 2] ++
        [1, 2, 3, 4, 5, 6, 7, 8, 9, 10]) := by decide +kernel
  obtain ⟨frs, hperm, -, hgen⟩ := push_complete_genuine _ _ _ _ _ _ h
  refine ⟨_, frs, h, ?_, hgen⟩
  rw [hperm.length_eq]
  decide +kernel

end Reassembler
end Boreas.L3
