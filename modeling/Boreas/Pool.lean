import Mathlib

/-! # The buffer pool

`BufferPool` lends slices of one size within one budget.  The model keeps what the pool's lock guards: how many
buffers are allocated (`live`), how many of them are back in the recycling cache (`free`), and the refusals
counted.  A refusal never waits. -/

namespace Boreas

structure BufferPool where
  sliceSize : ℕ+
  capacity : ℕ+
  free : ℕ
  live : ℕ
  exhausted : ℕ
  free_le : free ≤ live
  live_le : live ≤ capacity

namespace BufferPool

def new (sliceSize capacity : ℕ+) : BufferPool := ⟨sliceSize, capacity, 0, 0, 0, Nat.zero_le 0, Nat.zero_le capacity⟩

variable (p : BufferPool)

def available : ℕ := p.capacity - p.live + p.free

def u64Max : ℕ := 2 ^ 64 - 1

def reserve (len : ℕ) : BufferPool × Bool :=
  if p.sliceSize < len then (p, false)
  else if hfree : 0 < p.free then
    ({ p with free := p.free - 1, free_le := by have := p.free_le; omega }, true)
  else if hlive : p.capacity ≤ p.live then
    ({ p with exhausted := min (p.exhausted + 1) u64Max }, false)
  else
    ({ p with live := p.live + 1, free_le := by have := p.free_le; omega, live_le := by omega }, true)

def take {α : Type*} (bytes : List α) : BufferPool × Option (List α) :=
  match p.reserve bytes.length with
  | (p, true) => (p, some bytes)
  | (p, false) => (p, none)

def takeZeroed (len : ℕ) : BufferPool × Option (List UInt8) :=
  match p.reserve len with
  | (p, true) => (p, some (List.replicate len 0))
  | (p, false) => (p, none)

def release : BufferPool :=
  if h : p.free < p.live then { p with free := p.free + 1, free_le := h } else p

theorem reserve_sliceSize (len : ℕ) : (p.reserve len).1.sliceSize = p.sliceSize := by
  unfold reserve
  split_ifs <;> rfl

theorem reserve_iff (len : ℕ) : (p.reserve len).2 = true ↔ len ≤ p.sliceSize ∧ 0 < p.available := by
  unfold reserve available
  split_ifs with hsize hfree hlive <;> simp only [true_iff, false_iff] <;> omega

variable {p : BufferPool}

theorem available_reserve (h : p.reserve len = (p', true)) : p'.available + 1 = p.available := by
  unfold reserve at h
  split_ifs at h with hsize hcach hfull <;> cases h <;> simp only [available] <;> omega

theorem take_of_room {bytes : List α} (hsize : bytes.length ≤ p.sliceSize)
    (hroom : 0 < p.available) : (p.take bytes).2 = some bytes := by
  have h := (p.reserve_iff bytes.length).mpr ⟨hsize, hroom⟩
  unfold take
  rcases hr : p.reserve bytes.length with ⟨p', granted⟩
  rw [hr] at h
  subst h
  rfl

theorem takeZeroed_eq (h : p.takeZeroed len = (p', some bytes)) : bytes = List.replicate len 0 := by
  unfold takeZeroed at h
  split at h <;> cases h
  rfl

theorem takeZeroed_of_room {len : ℕ} (hsize : len ≤ p.sliceSize) (hroom : 0 < p.available) :
    ∃ p', p.takeZeroed len = (p', some (List.replicate len 0)) := by
  have h := (p.reserve_iff len).mpr ⟨hsize, hroom⟩
  unfold takeZeroed
  rcases hr : p.reserve len with ⟨p', granted⟩
  rw [hr] at h
  subst h
  exact ⟨p', rfl⟩

end BufferPool

end Boreas
