import Boreas.ReassemblyGenuine

/-! # The expiry index of the reassembler

`Indexed es pending` says that the index `es` holds the keys of `pending`, each once and in the bucket its datagram's
`slot` names; `Sound r clock` adds the ceiling, the count of received blocks, and that no datagram is filed later than
its deadline.  By `exact_run` the index is `Exact` after every run in which no refresh takes a deadline back behind
the bucket, which happens only when it exceeds the clock's range. -/

namespace Boreas.L3

open List hiding after cons keys le_trans lookup mem_keys nil not_le take
open Option hiding none some
open Runs Table
open Buckets (Filed Ordered due fileAll filed_iff keys keys_eq later)
open Instant (last le_iff ofSecs)

/-! ### The index as buckets -/

structure Indexed (es : Expirations) (pending : Table Key Pending) : Prop where
  ordered : Ordered es
  nodup : (keys es).Nodup
  filed : ∀ t k, Filed es t k ↔ ∃ p, pending.lookup k = some p ∧ p.expiry.slot = t

namespace Indexed

variable {es : Expirations} {pending : Table Key Pending}

theorem mem_keys (h : Indexed es pending) : k ∈ keys es ↔ ∃ p, pending.lookup k = some p := by
  rw [Buckets.mem_keys]
  constructor
  · rintro ⟨t, ht⟩
    obtain ⟨p, hp, -⟩ := (h.filed t k).mp ht
    exact ⟨p, hp⟩
  · rintro ⟨p, hp⟩
    exact ⟨p.expiry.slot, (h.filed _ k).mpr ⟨p, hp, rfl⟩⟩

theorem empty : Indexed [] ∅ :=
  ⟨Buckets.ordered_nil, nodup_nil, fun t k => by simp [Filed]⟩

theorem opened (h : Indexed es pending) (hnone : pending.lookup k = none) (q : Pending) :
    Indexed (Expirations.file q.expiry.slot k es) (pending.insert k q) := by
  unfold Expirations.file
  have hfresh : k ∉ keys es := by
    intro hk
    obtain ⟨p, hp⟩ := h.mem_keys.mp hk
    rw [hnone] at hp
    cases hp
  have hents := Buckets.entries_file q.expiry.slot k es
  refine ⟨h.ordered.file _ _, ?_, fun t j => ?_⟩
  · rw [keys_eq, (hents.map Prod.snd).nodup_iff, map_cons, ← keys_eq]
    exact nodup_cons.mpr ⟨hfresh, h.nodup⟩
  rw [filed_iff, hents.mem_iff, mem_cons, ← filed_iff, h.filed]
  by_cases hj : j = k
  · subst hj
    simp [hnone, eq_comm]
  · simp [hj]

theorem refreshed (h : Indexed es pending) (hp : pending.lookup k = some p)
    (hslot : q.expiry.slot = p.expiry.slot) : Indexed es (pending.insert k q) := by
  refine ⟨h.ordered, h.nodup, fun t j => ?_⟩
  rw [h.filed]
  by_cases hj : j = k
  · subst hj
    simp [hp, hslot]
  · simp [hj]

theorem closed (h : Indexed es pending) (hq : pending.lookup k = some q) :
    Indexed (Expirations.forget q.expiry.slot k es) (pending.erase k) := by
  unfold Expirations.forget
  refine ⟨h.ordered.forget _ _, Buckets.nodup_keys_forget h.ordered.sorted h.nodup _ _, fun t j => ?_⟩
  · rw [Buckets.filed_forget h.ordered.sorted h.nodup, h.filed, lookup_erase_eq]
    by_cases hj : j = k
    · subst hj
      simp only [hq, Option.some.injEq, exists_eq_left', and_true, if_true, reduceCtorEq, false_and, exists_false,
        iff_false, not_and, not_not]
      exact fun hslot => hslot.symm
    · simp [hj]

end Indexed

/-! ### Looking at the due buckets -/

def Pending.surfaced (now : Instant) (p : Pending) : Option Pending :=
  if p.expiry.at_ ≤ now then none else some { p with expiry := { p.expiry with slot := p.expiry.at_ } }

def refiling (now : Instant) (pending : Table Key Pending) (key : Key) : Option (Instant × Key) :=
  (pending.lookup key).bind fun p => (p.surfaced now).map fun q => (q.expiry.slot, key)

namespace Sweep

structure Swept (now : Instant) (keys : List Key) (s s' : Sweep) : Prop where
  lookup : ∀ k, s'.pending.lookup k =
    if k ∈ keys then (s.pending.lookup k).bind (Pending.surfaced now) else s.pending.lookup k
  rebucket : s'.rebucket = s.rebucket ++ keys.filterMap (refiling now s.pending)
  evicted : s'.evicted + size s'.pending = s.evicted + size s.pending

variable (now : Instant)

/-- **Step lemma** of the sweep. -/
theorem swept_visit (s : Sweep) (key : Key) : Swept now [key] s (s.visit now key) := by
  unfold visit
  cases hlook : s.pending.lookup key with
  | none =>
    refine ⟨fun k => ?_, by simp [refiling, hlook], rfl⟩
    simp only [mem_singleton]
    split_ifs with hk
    · rw [hk, hlook]
      rfl
    · rfl
  | some p =>
    dsimp only
    split_ifs with hdue
    · refine ⟨fun k => ?_, by simp [refiling, hlook, Pending.surfaced, hdue], ?_⟩
      · simp only [lookup_erase_eq, mem_singleton]
        split_ifs with hk
        · rw [hk, hlook, bind_some, Pending.surfaced, if_pos hdue]
        · rfl
      · have hsize := size_erase hlook
        dsimp only
        omega
    · refine ⟨fun k => ?_, by simp [refiling, hlook, Pending.surfaced, hdue], ?_⟩
      · simp only [lookup_insert_eq, mem_singleton]
        split_ifs with hk
        · rw [hk, hlook, bind_some, Pending.surfaced, if_neg hdue]
        · rfl
      · rw [size_insert, hlook, if_neg (by simp)]

theorem Swept.refl (s : Sweep) : Swept now [] s s :=
  ⟨fun k => by simp, by simp, rfl⟩

theorem Swept.trans {now : Instant} (h₁ : Swept now before s t)
    (h₂ : Swept now after t u) (happart : ∀ k ∈ after, k ∉ before) : Swept now (before ++ after) s u := by
  have hsame : ∀ k ∈ after, t.pending.lookup k = s.pending.lookup k := by
    intro k hk
    rw [h₁.lookup, if_neg (happart k hk)]
  refine ⟨fun k => ?_, ?_, h₂.evicted.trans h₁.evicted⟩
  · rw [h₂.lookup]
    by_cases hk : k ∈ after
    · rw [if_pos hk, if_pos (mem_append_right _ hk), hsame k hk]
    · rw [h₁.lookup]
      simp [hk]
  · have hrefiling : after.filterMap (refiling now t.pending) = after.filterMap (refiling now s.pending) := by
      refine filterMap_congr fun k hk => ?_
      rw [refiling, hsame k hk]
      rfl
    rw [h₂.rebucket, h₁.rebucket, hrefiling, filterMap_append, append_assoc]

/-- **Run lemma** of the sweep. -/
theorem swept_foldl (keys : List Key) (hnodup : keys.Nodup) (s : Sweep) :
    Swept now keys s (keys.foldl (visit now) s) := by
  induction keys generalizing s with
  | nil => exact Swept.refl now s
  | cons key keys ih =>
    obtain ⟨hkey, hkeys⟩ := nodup_cons.mp hnodup
    refine (swept_visit now s key).trans (ih hkeys _) fun k hk hmem => ?_
    rw [mem_singleton.mp hmem] at hk
    exact hkey hk

theorem drain_eq (es : Expirations) (s : Sweep) :
    drain now es s = (later now es, (keys (due now es)).foldl (visit now) s) := by
  induction es generalizing s with
  | nil => rfl
  | cons b es ih =>
    obtain ⟨d, keys⟩ := b
    unfold drain Buckets.later Buckets.due Buckets.keys
    rw [dropWhile_cons, takeWhile_cons]
    by_cases hd : d ≤ now
    · simp only [hd, decide_true, if_true, flatMap_cons, foldl_append]
      exact ih _
    · simp [hd]

end Sweep

namespace Reassembler

theorem expire_swept (r : Reassembler) (now : Instant) (hnodup : (keys r.expirations).Nodup) :
    ∃ s, Sweep.Swept now (keys (due now r.expirations)) ⟨r.pending, 0, []⟩ s ∧
      r.expire now = ({ r with
        pending := s.pending
        expirations := fileAll s.rebucket (later now r.expirations) }, s.evicted) := by
  have hdue : (keys (due now r.expirations)).Nodup := by
    rw [← Buckets.keys_due_append_later now] at hnodup
    exact hnodup.of_append_left
  refine ⟨_, Sweep.swept_foldl now _ hdue _, ?_⟩
  unfold expire fileAll
  rw [Sweep.drain_eq]
  rfl

end Reassembler

def Pending.expired (now : Instant) (p : Pending) : Option Pending :=
  if p.expiry.slot ≤ now then p.surfaced now else some p

namespace Indexed

theorem mem_due (h : Indexed es pending) (now : Instant) :
    k ∈ keys (due now es) ↔ ∃ p, pending.lookup k = some p ∧ p.expiry.slot ≤ now := by
  simp only [Buckets.mem_keys, Buckets.filed_due h.ordered.sorted, h.filed]
  constructor
  · rintro ⟨t, ⟨p, hp, rfl⟩, hle⟩
    exact ⟨p, hp, hle⟩
  · rintro ⟨p, hp, hle⟩
    exact ⟨_, ⟨p, hp, rfl⟩, hle⟩

theorem lookup_expire {r : Reassembler} (h : Indexed r.expirations r.pending) (now : Instant) (k : Key) :
    (r.expire now).1.pending.lookup k = (r.pending.lookup k).bind (Pending.expired now) := by
  obtain ⟨s, hs, heq⟩ := r.expire_swept now h.nodup
  rw [heq]
  rw [hs.lookup]
  rcases hp : r.pending.lookup k with _ | p
  · simp
  have hdue : k ∈ keys (due now r.expirations) ↔ p.expiry.slot ≤ now := by
    rw [h.mem_due, hp]
    simp
  simp only [hdue, bind_some, Pending.expired]

theorem evicted_expire {r : Reassembler} (h : Indexed r.expirations r.pending) (now : Instant) :
    (r.expire now).2 + size (r.expire now).1.pending = size r.pending := by
  obtain ⟨s, hs, heq⟩ := r.expire_swept now h.nodup
  rw [heq]
  exact hs.evicted.trans (Nat.zero_add _)

theorem map_refiling_sublist (now : Instant) (pending : Table Key Pending) (keys : List Key) :
    ((keys.filterMap (refiling now pending)).map Prod.snd).Sublist keys := by
  induction keys with
  | nil => exact List.Sublist.refl _
  | cons key keys ih =>
    rcases hkey : refiling now pending key with _ | e
    · rw [filterMap_cons_none hkey]
      exact ih.cons key
    have hsnd : e.2 = key := by
      simp only [refiling, bind_eq_some_iff, map_eq_some_iff] at hkey
      obtain ⟨_, _, _, _, rfl⟩ := hkey
      rfl
    rw [filterMap_cons_some hkey, map_cons, hsnd]
    exact ih.cons_cons key

theorem mem_refiling {keys : List Key} : (t, k) ∈ keys.filterMap (refiling now pending) ↔
      k ∈ keys ∧ ∃ p, (pending.lookup k).bind (Pending.surfaced now) = some p ∧ p.expiry.slot = t := by
  rw [mem_filterMap]
  simp only [refiling, bind_eq_some_iff, map_eq_some_iff, Prod.mk.injEq]
  constructor
  · rintro ⟨k', hk', p, hp, q, hq, rfl, rfl⟩
    exact ⟨hk', q, ⟨p, hp, hq⟩, rfl⟩
  · rintro ⟨hk, q, ⟨p, hp, hq⟩, rfl⟩
    exact ⟨k, hk, p, hp, q, hq, rfl, rfl⟩

theorem expire {r : Reassembler} (h : Indexed r.expirations r.pending) (now : Instant) :
    Indexed (r.expire now).1.expirations (r.expire now).1.pending := by
  obtain ⟨s, hs, heq⟩ := r.expire_swept now h.nodup
  rw [heq]
  have hrebucket : s.rebucket =
      (keys (due now r.expirations)).filterMap (refiling now r.pending) := hs.rebucket
  have hents := Buckets.entries_fileAll s.rebucket (later now r.expirations)
  refine ⟨(h.ordered.later now).fileAll _, ?_, fun t k => ?_⟩
  · rw [keys_eq, (hents.map Prod.snd).nodup_iff, map_append, ← keys_eq, hrebucket]
    refine h.nodup.sublist ?_
    rw [← Buckets.keys_due_append_later now r.expirations]
    exact (map_refiling_sublist now r.pending _).append_right _
  · rw [filed_iff, hents.mem_iff, mem_append, ← filed_iff, hrebucket, mem_refiling,
      Buckets.filed_later h.ordered.sorted, h.filed, hs.lookup]
    by_cases hk : k ∈ keys (due now r.expirations)
    · -- The key is in a due bucket, so it is in no later one.
      obtain ⟨p, hp, hle⟩ := (h.mem_due now).mp hk
      have hlater : ¬ ((∃ p, r.pending.lookup k = some p ∧ p.expiry.slot = t) ∧ now < t) := by
        rintro ⟨⟨p', hp', rfl⟩, hlt⟩
        rw [hp] at hp'
        cases hp'
        exact absurd hle (not_le.mpr hlt)
      rw [if_pos hk]
      simp only [hk, true_and, hlater, or_false]
    · have hnot : ∀ p, r.pending.lookup k = some p → now < p.expiry.slot := fun p hp =>
        not_le.mp fun hle => hk ((h.mem_due now).mpr ⟨p, hp, hle⟩)
      simp only [hk, false_and, false_or]
      constructor
      · exact And.left
      · rintro ⟨p, hp, rfl⟩
        exact ⟨⟨p, hp, rfl⟩, hnot p hp⟩

end Indexed

/-! ### What holds of a pending datagram -/

/-- As many blocks are counted as are marked, and the datagram is filed no later than its deadline, which is at most
`limit`. -/
structure Pending.Kept (limit : ℕ) (p : Pending) : Prop where
  counted : p.receivedBlocks = p.received.count
  filedEarly : p.expiry.slot ≤ p.expiry.at_
  limited : p.expiry.at_.ns ≤ limit

namespace Pending

theorem expiry_receive (p : Pending) (f : Fragment) : (p.receive f).1.expiry = p.expiry := by
  unfold receive settle
  split_ifs <;> first | rfl | rw [store_eq]

theorem counted_store {p : Pending} (hf : f.Acceptable) (h : p.receivedBlocks = p.received.count)
    (hov : p.overlaps f = false) : (p.store f).receivedBlocks = (p.store f).received.count := by
  have hlt := Fragment.firstBlock_lt_endBlock hf
  unfold Fragment.endBlock at hlt
  have hclear : ∀ i, f.firstBlock ≤ i → i ≤ f.lastBlock → p.received.test i = false := by
    intro i hfirst hlast
    unfold overlaps at hov
    rw [List.any_eq_false] at hov
    exact Bool.eq_false_iff.mpr (hov i (mem_range'_1.mpr ⟨hfirst, by omega⟩))
  rw [store_eq]
  dsimp only
  rw [Bitmap.count_setRange _ (Fragment.lastBlock_lt hf) hclear]
  omega

theorem counted_receive {p : Pending} (hf : f.Acceptable) (h : p.receivedBlocks = p.received.count) :
    (p.receive f).1.receivedBlocks = (p.receive f).1.received.count := by
  unfold receive settle
  split_ifs with hpois hcon hov hmore hlen
  all_goals first | exact h | exact counted_store hf h (by simpa using hov)

theorem Kept.receive {p : Pending} (h : p.Kept limit) (hf : f.Acceptable) : (p.receive f).1.Kept limit := by
  have hexp := p.expiry_receive f
  exact ⟨counted_receive hf h.counted, by rw [hexp]; exact h.filedEarly, by rw [hexp]; exact h.limited⟩

theorem Kept.expired {p : Pending} (h : p.Kept limit) (hq : p.expired now = some q) : q.Kept limit := by
  unfold Pending.expired surfaced at hq
  split_ifs at hq
  · cases hq
    exact ⟨h.counted, le_rfl, h.limited⟩
  · cases hq
    exact h

theorem Kept.expired_eq_none {p : Pending} (h : p.Kept limit) (now : Instant) :
    p.expired now = none ↔ p.expiry.at_ ≤ now := by
  unfold Pending.expired surfaced
  split_ifs with hslot hdue
  · exact iff_of_true rfl hdue
  · exact iff_of_false (by simp) hdue
  · exact iff_of_false (by simp) fun hle => hslot (h.filedEarly.trans hle)

end Pending

namespace Reassembler

/-! ### The invariant -/

structure Sound (r : Reassembler) (clock : Instant) : Prop where
  indexed : Indexed r.expirations r.pending
  bounded : size r.pending ≤ r.maxPending
  kept : ∀ k p, r.pending.lookup k = some p → p.Kept (clock.ns + r.timeout)

variable (timeout : Duration)

variable (maxPending : ℕ+)

theorem sound_new (clock : Instant) : Sound (new timeout maxPending) clock :=
  ⟨Indexed.empty, Nat.zero_le _, fun k p hp => by simp [new] at hp⟩

variable {r : Reassembler}

theorem Sound.later (h : Sound r t) (hle : t ≤ t') : Sound r t' :=
  ⟨h.indexed, h.bounded, fun k p hp =>
    have hp' := h.kept k p hp
    ⟨hp'.counted, hp'.filedEarly, hp'.limited.trans (Nat.add_le_add_right hle _)⟩⟩

variable {clock : Instant}

theorem Sound.discard (h : Sound r clock) : Sound r.discard clock :=
  { h with }

theorem Sound.expire (h : Sound r clock) (now : Instant) : Sound (r.expire now).1 clock := by
  refine ⟨h.indexed.expire now, ?_, fun k q hq => ?_⟩
  · have hevicted := h.indexed.evicted_expire now
    exact le_trans (by omega) h.bounded
  · rw [h.indexed.lookup_expire, bind_eq_some_iff] at hq
    obtain ⟨p, hp, hq⟩ := hq
    exact (h.kept k p hp).expired hq

section

variable (r : Reassembler)

def deadline (now : Instant) : Instant := (now.checkedAdd r.timeout).getD now

theorem deadline_le (now : Instant) : (r.deadline now).ns ≤ now.ns + r.timeout := by
  unfold deadline
  cases h : now.checkedAdd r.timeout with
  | none => exact Nat.le_add_right _ _
  | some d => exact (Instant.checkedAdd_eq_some h).le

def opened (key : Key) (deadline : Instant) : Pending :=
  { (r.entry key deadline).2 with expiry := { (r.entry key deadline).2.expiry with at_ := deadline } }

def stored (f : Fragment) (deadline : Instant) : Reassembler :=
  { (r.entry f.key deadline).1 with
    pending := (r.entry f.key deadline).1.pending.insert f.key ((r.opened f.key deadline).receive f).1 }

theorem take_stored (f : Fragment) (now : Instant) :
    (r.take f now).1 = (r.stored f (r.deadline now)).discard ∨ (r.take f now).1 = r.stored f (r.deadline now) ∨
      (r.take f now).1 =
        ((r.stored f (r.deadline now)).finish f.key ((r.opened f.key (r.deadline now)).receive f).1).1 := by
  unfold take stored opened deadline
  dsimp only
  generalize Pending.receive _ f = received
  obtain ⟨q, out⟩ := received
  cases out with
  | discarded => exact .inl rfl
  | pending => exact .inr (.inl rfl)
  | complete => exact .inr (.inr rfl)

end

theorem Sound.stored (h : Sound r now) (hf : f.Acceptable)
    (hroom : r.pending.lookup f.key = none → size r.pending < r.maxPending)
    (hslot : ∀ p, r.pending.lookup f.key = some p → p.expiry.slot ≤ r.deadline now) :
    Sound (r.stored f (r.deadline now)) now := by
  have hlimit := r.deadline_le now
  have hins : ∀ q : Pending, q.Kept (now.ns + r.timeout) → ∀ k p, (r.pending.insert f.key q).lookup k = some p →
      p.Kept (now.ns + r.timeout) := fun q hq =>
    forall_lookup_insert (P := fun _ (p : Pending) => p.Kept (now.ns + r.timeout)) f.key hq h.kept
  unfold Reassembler.stored Reassembler.opened entry
  cases hp : r.pending.lookup f.key with
  | some p =>
    have hkept : ({ p with expiry := { p.expiry with at_ := r.deadline now } } : Pending).Kept (now.ns + r.timeout) :=
      ⟨(h.kept _ p hp).counted, hslot p hp, hlimit⟩
    refine ⟨h.indexed.refreshed hp (by rw [Pending.expiry_receive]), ?_, hins _ (hkept.receive hf)⟩
    rw [size_insert, if_neg (by simp [hp])]
    exact h.bounded
  | none =>
    have hkept : (Pending.new ⟨r.deadline now, r.deadline now⟩).Kept (now.ns + r.timeout) :=
      ⟨(Bitmap.count_zero (n := bitmapWords)).symm, le_rfl, hlimit⟩
    have hindexed := h.indexed.opened hp ((Pending.new ⟨r.deadline now, r.deadline now⟩).receive f).1
    rw [Pending.expiry_receive] at hindexed
    refine ⟨hindexed, ?_, hins _ (hkept.receive hf)⟩
    rw [size_insert, if_pos hp]
    exact hroom hp

theorem Sound.finish (h : Sound r clock) (hq : r.pending.lookup key = some q) : Sound (r.finish key q).1 clock := by
  have hcl : Sound { r with
      pending := r.pending.erase key
      expirations := Expirations.forget q.expiry.slot key r.expirations } clock := by
    refine ⟨h.indexed.closed hq, ?_, fun k p hp => ?_⟩
    · have hsize := size_erase hq
      exact le_trans (by dsimp only; omega) h.bounded
    · dsimp only at hp
      rw [lookup_erase_eq] at hp
      split_ifs at hp
      exact h.kept k p hp
  unfold Reassembler.finish
  split
  · exact hcl
  · exact hcl.discard

theorem Sound.take (h : Sound r now) (hf : f.Acceptable)
    (hroom : r.pending.lookup f.key = none → size r.pending < r.maxPending)
    (hslot : ∀ p, r.pending.lookup f.key = some p → p.expiry.slot ≤ r.deadline now) : Sound (r.take f now).1 now := by
  have hsto := h.stored hf hroom hslot
  obtain heq | heq | heq := r.take_stored f now
  · rw [heq]
    exact hsto.discard
  · rw [heq]
    exact hsto
  · rw [heq]
    exact hsto.finish (AList.lookup_insert _)

/-! ### Runs -/

def Op.reading : Op → Instant
  | .push _ now => now
  | .expire now => now

def InOrder (ops : List Op) : Prop := (ops.map Op.reading).Pairwise (· ≤ ·)

instance (ops : List Op) : Decidable (InOrder ops) := List.instDecidablePairwise _

/-- A fragment whose deadline is out of the clock's range finds its datagram, if there is one, in a bucket that is
due. -/
def Refreshable (r : Reassembler) : Op → Prop
  | .push f now => f.Acceptable → now.checkedAdd r.timeout = none →
      ∀ p ∈ r.pending.lookup f.key, p.expiry.slot ≤ now
  | .expire _ => True

instance (r : Reassembler) : ∀ op, Decidable (r.Refreshable op)
  | .push f now => inferInstanceAs (Decidable (f.Acceptable → now.checkedAdd r.timeout = none →
      ∀ p ∈ r.pending.lookup f.key, p.expiry.slot ≤ now))
  | .expire _ => isTrue trivial

theorem Sound.slot_le_deadline (h : Sound r now) (hf : f.Acceptable)
    (hrefr : r.Refreshable (.push f now)) (hp : r.pending.lookup f.key = some p) :
    p.expiry.slot ≤ r.deadline now := by
  obtain ⟨-, hearly, hlimit⟩ := h.kept _ p hp
  unfold deadline
  rcases hadd : now.checkedAdd r.timeout with _ | d
  · exact hrefr hf hadd p hp
  refine hearly.trans ?_
  rw [getD_some, le_iff, Instant.checkedAdd_eq_some hadd]
  exact hlimit

/-- **Step lemma**. -/
theorem sound_step (h : Sound r op.reading) (hrefr : r.Refreshable op) : Sound (r.step op) op.reading := by
  cases op with
  | expire now => exact h.expire now
  | push f now =>
    dsimp only [step, push]
    split_ifs with hf hfull hroom
    · exact (h.expire now).discard
    · -- Room was made for a key that has no datagram.
      have hnone : (r.expire now).1.pending.lookup f.key = none := by
        rw [h.indexed.lookup_expire, hfull.1]
        rfl
      have hexp := h.expire now
      refine hexp.take hf (fun _ => lt_of_le_of_ne hexp.bounded hroom) fun p hp => ?_
      rw [hnone] at hp
      cases hp
    · refine h.take hf (fun hnone => lt_of_le_of_ne h.bounded fun heq => hfull ⟨hnone, heq⟩) fun p hp => ?_
      exact h.slot_le_deadline hf hrefr hp
    · exact h.discard

/-- **Run lemma**. -/
theorem sound_run (ops : List Op) (horder : InOrder ops)
    (hrefr : Along step Refreshable (new timeout maxPending) ops) :
    Sound (run step (new timeout maxPending) ops) last := by
  refine run_clocked (I := fun _ r t => Sound r t) (fun op => some op.reading) (sound_new timeout maxPending)
    (fun _ _ _ _ h hle => h.later hle) ?_ ?_ ops ?_ hrefr _ fun now _ => now.le_last
  · intro ops op now hnow h hG
    cases hnow
    exact sound_step h hG
  · intro ops op t hnone
    cases hnone
  · rw [filterMap_eq_map']
    exact horder

/-! ### The exact index -/

structure Exact (r : Reassembler) : Prop where
  /-- A pending key is in the index once, in the bucket its slot names. -/
  filed : ∀ k p, r.pending.lookup k = some p →
    (keys r.expirations).count k = 1 ∧ Filed r.expirations p.expiry.slot k
  /-- The index holds no other key. -/
  pending : ∀ k ∈ keys r.expirations, (r.pending.lookup k).isSome
  nonempty : ∀ b ∈ r.expirations, b.2 ≠ []
  bounded : size r.pending ≤ r.maxPending
  counted : ∀ k p, r.pending.lookup k = some p → p.receivedBlocks = p.received.count
  /-- `expire` evicts what is due, and nothing else. -/
  evicts : ∀ now k p, r.pending.lookup k = some p →
    ((r.expire now).1.pending.lookup k = none ↔ p.expiry.at_ ≤ now)
  keeps : ∀ now, OnlyExpired r.pending (r.expire now).1.pending ∧
    (r.expire now).2 + size (r.expire now).1.pending = size r.pending
  /-- The next deadline is not after any deadline. -/
  early : ∀ k p, r.pending.lookup k = some p → ∃ first, r.nextDeadline = some first ∧ first ≤ p.expiry.at_

theorem Sound.exact (h : Sound r clock) : Exact r where
  filed k p hp := by
    have hfiled := (h.indexed.filed _ k).mpr ⟨p, hp, rfl⟩
    exact ⟨count_eq_one_of_mem h.indexed.nodup (Buckets.mem_keys.mpr ⟨_, hfiled⟩), hfiled⟩
  pending k hk := isSome_iff_exists.mpr (h.indexed.mem_keys.mp hk)
  nonempty := h.indexed.ordered.nonempty
  bounded := h.bounded
  counted k p hp := (h.kept k p hp).counted
  evicts now k p hp := by
    rw [h.indexed.lookup_expire, hp]
    exact (h.kept k p hp).expired_eq_none now
  keeps now := ⟨r.expire_onlyExpired now, h.indexed.evicted_expire now⟩
  early k p hp := by
    obtain ⟨first, hfirst, hle⟩ := Buckets.head_le h.indexed.ordered.sorted ((h.indexed.filed _ k).mpr ⟨p, hp, rfl⟩)
    exact ⟨first, hfirst, hle.trans (h.kept k p hp).filedEarly⟩

/-- **The expiry index is exact** after every run of `push` and `expire` with clock readings in order, in which no
fragment whose deadline is out of the clock's range refreshes a datagram of a later bucket. -/
theorem exact_run (ops : List Op) (horder : InOrder ops)
    (hrefresh : Along step Refreshable (new timeout maxPending) ops) :
    Exact (run step (new timeout maxPending) ops) :=
  (sound_run timeout maxPending ops horder hrefresh).exact

def refreshes : List Op :=
  [.push (exampleFragment 0 true [1, 2, 3, 4, 5, 6, 7, 8]) (ofSecs 1),
    .push (exampleFragment 2 true [1, 2, 3, 4, 5, 6, 7, 8]) (ofSecs 20), .expire (ofSecs 40)]

theorem exact_refreshes : InOrder refreshes ∧ Along step Refreshable (new (fromSecs 30) 4) refreshes ∧
    (run step (new (fromSecs 30) 4) refreshes).nextDeadline = some (ofSecs 50) ∧
    Exact (run step (new (fromSecs 30) 4) refreshes) :=
  have horder : InOrder refreshes := by decide
  have hrefr : Along step Refreshable (new (fromSecs 30) 4) refreshes := by decide
  ⟨horder, hrefr, by decide, exact_run (fromSecs 30) 4 refreshes horder hrefr⟩

/-- The second fragment's deadline is out of the clock's range, the first one's is not. -/
def overflowing : List Op :=
  [.push (exampleFragment 0 true [1, 2, 3, 4, 5, 6, 7, 8]) (ofSecs 5),
    .push (exampleFragment 2 true [1, 2, 3, 4, 5, 6, 7, 8]) (ofSecs 15)]

theorem exact_fails_of_overflowing_refresh : InOrder overflowing ∧
    ∃ k p, (run step (new (fromSecs (2 ^ 63 - 10)) 4) overflowing).pending.lookup k = some p ∧
      p.expiry.at_ = ofSecs 15 ∧ ((run step (new (fromSecs (2 ^ 63 - 10)) 4) overflowing).expire (ofSecs 15)).2 = 0 ∧
      (run step (new (fromSecs (2 ^ 63 - 10)) 4) overflowing).nextDeadline = some (ofSecs (2 ^ 63 - 5)) ∧
      ¬ Exact (run step (new (fromSecs (2 ^ 63 - 10)) 4) overflowing) := by
  have hfound : ((run step (new (fromSecs (2 ^ 63 - 10)) 4) overflowing).pending.lookup
      (exampleFragment 0 true []).key).any (fun p => p.expiry.at_ = ofSecs 15) = true := by decide
  obtain ⟨p, hp, hat⟩ := (any_eq_true _ _).mp hfound
  have hat' : p.expiry.at_ = ofSecs 15 := of_decide_eq_true hat
  have hkept : ((run step (new (fromSecs (2 ^ 63 - 10)) 4) overflowing).expire
      (ofSecs 15)).1.pending.lookup (exampleFragment 0 true []).key ≠ none := by decide
  refine ⟨by decide, _, p, hp, hat', by decide, by decide, fun h => hkept ?_⟩
  exact (h.evicts (ofSecs 15) _ p hp).mpr hat'.le

end Reassembler

end Boreas.L3
