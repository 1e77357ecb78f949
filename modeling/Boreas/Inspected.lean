import Boreas.Clock
import Boreas.Table
import Boreas.Wire

/-! # Inspected addresses and the ICMP budget

Two small states of datapath.rs.  `InspectedAddresses` keeps the addresses that DNS answers named for inspection,
each until its window ends; an address is live while its deadline is later than the reading, whether or not
`expire` has run (`live_iff`).  `IcmpBudget` holds the errors this hop may still generate in the current second. -/

namespace Boreas

open List

structure InspectedAddresses where
  window : Duration
  capacity : ℕ+
  until_ : Table IpAddr Instant
  earliest : Option Instant

namespace InspectedAddresses

def new (window : Duration) (capacity : ℕ+) : InspectedAddresses := ⟨window, capacity, ∅, none⟩

def admitOne (deadline : Instant) (acc : InspectedAddresses × ℕ) (address : IpAddr) : InspectedAddresses × ℕ :=
  if acc.1.until_.lookup address = none ∧ acc.1.capacity ≤ Table.size acc.1.until_ then (acc.1, acc.2 + 1)
  else
    ({ acc.1 with
        until_ := acc.1.until_.insert address deadline
        earliest := some (acc.1.earliest.elim deadline (fun soonest => min soonest deadline)) }, acc.2)

variable (s : InspectedAddresses)

def admitAddresses (addresses : List IpAddr) (now : Instant) : InspectedAddresses × ℕ :=
  match now.checkedAdd s.window with
  | none => (s, addresses.length)
  | some deadline => addresses.foldl (admitOne deadline) (s, 0)

def live (address : IpAddr) (now : Instant) : Bool :=
  (s.until_.lookup address).any (fun deadline => now < deadline)

def expire (now : Instant) : InspectedAddresses :=
  if s.earliest.all (fun earliest => now < earliest) then s
  else
    let until_ := Table.retain (fun _ deadline => if now < deadline then some deadline else none) s.until_
    { s with until_ := until_, earliest := (until_.entries.map (fun e => e.2)).min? }

variable {s : InspectedAddresses} {address : IpAddr}

variable {now : Instant}

theorem live_iff :
    s.live address now = true ↔ ∃ deadline, s.until_.lookup address = some deadline ∧ now < deadline := by
  unfold live
  cases s.until_.lookup address with
  | none | some deadline => simp

theorem live_mono (hle : now ≤ later) (h : s.live address later = true) : s.live address now = true := by
  obtain ⟨deadline, hlook, hlt⟩ := live_iff.mp h
  exact live_iff.mpr ⟨deadline, hlook, lt_of_le_of_lt hle hlt⟩

variable {acc : InspectedAddresses × ℕ} {deadline : Instant}

theorem lookup_admitOne
    (hne : other ≠ address) : (admitOne deadline acc address).1.until_.lookup other = acc.1.until_.lookup other := by
  unfold admitOne
  split_ifs with hfull
  · rfl
  · exact AList.lookup_insert_ne hne

variable {addresses : List IpAddr}

theorem lookup_admitAddresses
    (hne : other ∉ addresses) : (s.admitAddresses addresses now).1.until_.lookup other = s.until_.lookup other := by
  unfold admitAddresses
  rcases now.checkedAdd s.window with _ | deadline
  · rfl
  suffices h : ∀ acc : InspectedAddresses × ℕ,
      (addresses.foldl (admitOne deadline) acc).1.until_.lookup other = acc.1.until_.lookup other from h (s, 0)
  induction addresses with
  | nil => exact fun _ => rfl
  | cons address addresses ih =>
    intro acc
    rw [mem_cons, not_or] at hne
    rw [foldl_cons, ih hne.2, lookup_admitOne hne.1]

theorem le_foldl_admitOne (deadline : Instant) (addresses : List IpAddr) (acc : InspectedAddresses × ℕ) :
    acc.2 ≤ (addresses.foldl (admitOne deadline) acc).2 := by
  induction addresses generalizing acc with
  | nil => exact le_rfl
  | cons address addresses ih =>
    refine le_trans ?_ (ih _)
    unfold admitOne
    split_ifs
    · exact Nat.le_succ _
    · exact le_rfl

theorem lookup_foldl_admitOne (hroom : (addresses.foldl (admitOne deadline) acc).2 = acc.2)
    (h : address ∈ addresses ∨ acc.1.until_.lookup address = some deadline) :
    (addresses.foldl (admitOne deadline) acc).1.until_.lookup address = some deadline := by
  induction addresses generalizing acc with
  | nil => exact h.resolve_left not_mem_nil
  | cons first addresses ih =>
    rw [foldl_cons] at hroom ⊢
    have hle := le_foldl_admitOne deadline addresses (admitOne deadline acc first)
    have hkept : (admitOne deadline acc first).2 = acc.2 ∧
        (admitOne deadline acc first).1.until_.lookup first = some deadline := by
      unfold admitOne at hroom hle ⊢
      split_ifs at hroom hle ⊢ with hfull
      · omega
      · exact ⟨rfl, AList.lookup_insert _⟩
    refine ih (hroom.trans hkept.1.symm) ?_
    by_cases heq : address = first
    · rw [heq]
      exact .inr hkept.2
    · rw [mem_cons, or_iff_right heq] at h
      rw [lookup_admitOne heq]
      exact h

/-- **Admitted addresses are live**, as long as there was room for all of them. -/
theorem live_admitAddresses (hwin : 0 < s.window)
    (hroom : (s.admitAddresses addresses now).2 = 0) (h : address ∈ addresses) :
    (s.admitAddresses addresses now).1.live address now = true := by
  unfold admitAddresses at hroom ⊢
  rcases hadd : now.checkedAdd s.window with _ | deadline
  · rw [hadd] at hroom
    rw [length_eq_zero_iff.mp hroom] at h
    cases h
  rw [hadd] at hroom
  refine live_iff.mpr ⟨deadline, lookup_foldl_admitOne hroom (.inl h), ?_⟩
  rw [Instant.lt_iff, Instant.checkedAdd_eq_some hadd]
  exact Nat.lt_add_of_pos_right hwin

theorem live_of_expire (h : (s.expire now).live address later = true) : s.live address later = true := by
  obtain ⟨deadline, hlook, hlt⟩ := live_iff.mp h
  refine live_iff.mpr ⟨deadline, ?_, hlt⟩
  unfold expire at hlook
  split_ifs at hlook with hnone
  · exact hlook
  rw [Table.lookup_retain, Option.bind_eq_some_iff] at hlook
  obtain ⟨stored, hsto, hkept⟩ := hlook
  split_ifs at hkept with hlater
  cases hkept
  exact hsto

end InspectedAddresses

def icmpErrorsPerSecond : ℕ := 100

structure IcmpBudget where
  tokens : ℕ
  refilled : Instant
deriving DecidableEq

namespace IcmpBudget

def new (now : Instant) : IcmpBudget := ⟨icmpErrorsPerSecond, now⟩

def refill (b : IcmpBudget) (now : Instant) : IcmpBudget :=
  if fromSecs 1 ≤ now.saturatingDurationSince b.refilled then ⟨icmpErrorsPerSecond, now⟩ else b

def take (b : IcmpBudget) (now : Instant) : IcmpBudget × Bool :=
  let b := b.refill now
  if b.tokens = 0 then (b, false) else ({ b with tokens := b.tokens - 1 }, true)

end IcmpBudget

end Boreas
