import Mathlib

/-! # The monotonic clock

`Instant` is a reading of the platform's monotonic clock, in nanoseconds from its origin; the
range is that of a signed 64-bit number of seconds.  A `Duration` is a number of nanoseconds. -/

namespace Boreas

def nanosPerSec : ℕ := 1000000000

def instantEnd : ℕ := 2 ^ 63 * nanosPerSec

structure Instant where
  ns : ℕ
  inRange : ns < instantEnd
deriving DecidableEq

abbrev Duration := ℕ

def fromSecs (secs : ℕ) : ℕ := secs * nanosPerSec

namespace Instant

def ofSecs (secs : ℕ) : Instant :=
  ⟨secs % 2 ^ 63 * nanosPerSec, Nat.mul_lt_mul_of_pos_right (Nat.mod_lt _ (by decide)) (by decide)⟩

theorem ext_ns {b : Instant} (h : a.ns = b.ns) : a = b := by
  cases a; cases b; cases h; rfl

instance : LinearOrder Instant := LinearOrder.lift' Instant.ns (fun _ _ h => ext_ns h)

theorem le_iff (b : Instant) : a ≤ b ↔ a.ns ≤ b.ns := Iff.rfl

theorem lt_iff (b : Instant) : a < b ↔ a.ns < b.ns := Iff.rfl

def last : Instant := ⟨instantEnd - 1, by decide⟩

theorem le_last (t : Instant) : t ≤ last := Nat.le_sub_one_of_lt t.inRange

def checkedAdd (t : Instant) (d : Duration) : Option Instant :=
  if h : t.ns + d < instantEnd then some ⟨t.ns + d, h⟩ else none

def saturatingDurationSince (t earlier : Instant) : Duration := t.ns - earlier.ns

theorem checkedAdd_eq_some {t : Instant} (h : t.checkedAdd d = some u) : u.ns = t.ns + d := by
  unfold checkedAdd at h
  split_ifs at h
  cases h
  rfl

end Instant
end Boreas
