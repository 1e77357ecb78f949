import Mathlib

/-! # A token bucket that is filled at once

A bucket of `capacity` tokens that is full again at the first request a `period` or more after it was last filled.  A
request keeps `Kept`, and with it at most `capacity * (n + 1)` requests are granted within any interval shorter than
`n` periods (`Kept.within_le`). -/

namespace Boreas

structure TokenBucket where
  tokens : ℕ
  filled : ℕ
deriving DecidableEq, Repr

namespace TokenBucket

open List

variable {capacity period : ℕ}

def new (capacity now : ℕ) : TokenBucket := ⟨capacity, now⟩

def refill (capacity period : ℕ) (b : TokenBucket) (now : ℕ) : TokenBucket :=
  if period ≤ now - b.filled then ⟨capacity, now⟩ else b

def take (capacity period : ℕ) (b : TokenBucket) (now : ℕ) : TokenBucket × Bool :=
  let b := b.refill capacity period now
  if b.tokens = 0 then (b, false) else ({ b with tokens := b.tokens - 1 }, true)

def since (first : ℕ) (granted : List ℕ) : ℕ := granted.countP fun t => first ≤ t

def within (first last : ℕ) (granted : List ℕ) : ℕ := granted.countP fun t => first ≤ t ∧ t ≤ last

theorem since_le (first : ℕ) (granted : List ℕ) : since first granted ≤ granted.length := countP_le_length

theorem within_le_since (first last : ℕ) (granted : List ℕ) : within first last granted ≤ since first granted := by
  refine countP_mono_left fun t _ h => ?_
  simp only [decide_eq_true_eq] at h ⊢
  exact h.1

theorem since_eq_zero (hpast : ∀ t ∈ granted, t ≤ clock) (h : clock < first) : since first granted = 0 := by
  refine countP_eq_zero.mpr fun t ht => ?_
  have := hpast t ht
  simp only [decide_eq_true_eq]
  omega

theorem since_snoc_le (first now : ℕ) (granted : List ℕ) :
    since first (granted ++ [now]) ≤ since first granted + 1 := by
  unfold since
  rw [countP_append, countP_singleton]
  split_ifs <;> omega

/-- As many as can be granted since `first`, when the bucket was last filled at `filled`: one filling for each period
since then, and two more for the parts of periods at both ends. -/
def bound (capacity period filled first : ℕ) : ℕ :=
  if filled < first then capacity else capacity * ((filled - first) / period + 2)

theorem le_bound (capacity period filled first : ℕ) : capacity ≤ bound capacity period filled first := by
  unfold bound
  split_ifs with hpre
  · exact le_rfl
  · exact Nat.le_mul_of_pos_right _ (Nat.succ_pos _)

theorem bound_le (capacity period first : ℕ) {filled : ℕ} (h : filled ≤ last) :
    bound capacity period filled first ≤ capacity * ((last - first) / period + 2) := by
  unfold bound
  split_ifs with hpre
  · exact Nat.le_mul_of_pos_right _ (Nat.succ_pos _)
  · have hdiv : (filled - first) / period ≤ (last - first) / period :=
      Nat.div_le_div_right (Nat.sub_le_sub_right h first)
    exact Nat.mul_le_mul_left _ (Nat.add_le_add_right hdiv 2)

theorem bound_refill (capacity : ℕ) (hperiod : 0 < period) {filled : ℕ} (hlater : filled + period ≤ now)
    (hfirst : first ≤ now) : bound capacity period filled first + capacity ≤ bound capacity period now first := by
  have hnow : bound capacity period now first = capacity * ((now - first) / period + 2) := if_neg (not_lt.mpr hfirst)
  rw [hnow, bound]
  split_ifs with hpre
  · calc capacity + capacity = capacity * 2 := (mul_two _).symm
      _ ≤ capacity * ((now - first) / period + 2) := Nat.mul_le_mul_left _ (Nat.le_add_left 2 _)
  have hdiv : (filled - first) / period + 1 ≤ (now - first) / period := by
    rw [← Nat.add_div_right _ hperiod]
    exact Nat.div_le_div_right (by omega)
  calc capacity * ((filled - first) / period + 2) + capacity
    _ ≤ capacity * ((now - first) / period + 2) := Nat.mul_le_mul_left _ (Nat.add_le_add_right hdiv 2)

/-- What the bucket says at `clock` about the times of the requests granted: either it was never filled again, or
it holds no more than what the bound leaves. -/
structure Kept (capacity period : ℕ) (b : TokenBucket) (granted : List ℕ) (clock : ℕ) : Prop where
  past : ∀ t ∈ granted, t ≤ clock
  held : granted.length + b.tokens ≤ capacity ∨
    b.filled ≤ clock ∧ ∀ first, since first granted + b.tokens ≤ bound capacity period b.filled first
  window : ∀ first last, within first last granted ≤ capacity * ((last - first) / period + 2)

theorem kept_new (now clock : ℕ) : Kept capacity period (new capacity now) [] clock where
  past _ ht := absurd ht not_mem_nil
  held := .inl (Nat.zero_add capacity).le
  window _ _ := Nat.zero_le _

variable {b : TokenBucket} {granted : List ℕ} {clock now : ℕ}

theorem Kept.later (h : Kept capacity period b granted clock) (hle : clock ≤ now) :
    Kept capacity period b granted now where
  past t ht := le_trans (h.past t ht) hle
  held := h.held.imp_right fun hheld => ⟨le_trans hheld.1 hle, hheld.2⟩
  window := h.window

theorem Kept.sublist (h : Kept capacity period b granted clock) (hused : used.Sublist granted) :
    Kept capacity period b used clock where
  past t ht := h.past t (hused.subset ht)
  held := by
    refine h.held.imp (fun hfew => ?_) fun hheld => ⟨hheld.1, fun first => ?_⟩
    · have := hused.length_le
      omega
    · exact le_trans (Nat.add_le_add_right hused.countP_le _) (hheld.2 first)
  window first last := le_trans hused.countP_le (h.window first last)

theorem Kept.refill (hperiod : 0 < period) (h : Kept capacity period b granted now) :
    Kept capacity period (b.refill capacity period now) granted now := by
  unfold TokenBucket.refill
  split_ifs with hdue
  · refine ⟨h.past, .inr ⟨le_rfl, fun first => ?_⟩, h.window⟩
    dsimp only
    by_cases hfirst : now < first
    · rw [since_eq_zero h.past hfirst, bound, if_pos hfirst, Nat.zero_add]
    have hfill : b.filled + period ≤ now := by omega
    have hroom := bound_refill capacity hperiod hfill (not_lt.mp hfirst)
    have hsince := since_le first granted
    cases h.held with
    | inl hfew =>
      have := le_bound capacity period b.filled first
      omega
    | inr hheld =>
      have := hheld.2 first
      omega
  · exact h

/-- **Step lemma**: a request keeps the bound, granted or not. -/
theorem Kept.take (hperiod : 0 < period) (h : Kept capacity period b granted now) :
    Kept capacity period (b.take capacity period now).1
      (if (b.take capacity period now).2 then granted ++ [now] else granted) now := by
  have hfill := h.refill hperiod
  unfold TokenBucket.take
  by_cases hempty : (b.refill capacity period now).tokens = 0
  · rw [if_pos hempty]
    exact hfill
  rw [if_neg hempty]
  generalize b.refill capacity period now = b' at hfill hempty
  rw [if_pos rfl]
  refine ⟨fun t ht => ?_, ?_, fun first last => ?_⟩
  · rw [mem_append, mem_singleton] at ht
    cases ht with
    | inl ht => exact hfill.past t ht
    | inr ht => exact ht.le
  · refine hfill.held.imp (fun hfew => ?_) fun hheld => ⟨hheld.1, fun first => ?_⟩
    · rw [length_append, length_singleton]
      dsimp only
      omega
    · have := hheld.2 first
      have := since_snoc_le first now granted
      dsimp only
      omega
  · have hpre := hfill.window first last
    unfold within
    rw [countP_append, countP_singleton]
    split_ifs with hin
    · -- The new request is in the window, so the window reaches to the last filling.
      simp only [decide_eq_true_eq] at hin
      have hsince := within_le_since first last granted
      have hcount := since_le first granted
      unfold within at hsince
      cases hfill.held with
      | inl hfew =>
        have : capacity ≤ capacity * ((last - first) / period + 2) := Nat.le_mul_of_pos_right _ (Nat.succ_pos _)
        omega
      | inr hheld =>
        have := hheld.2 first
        have := bound_le capacity period first (le_trans hheld.1 hin.2)
        omega
    · exact hpre

/-- **At most `capacity * (n + 1)` requests are granted within less than `n` periods.** -/
theorem Kept.within_le (h : Kept capacity period b granted clock)
    (hshort : last - first < n * period) : within first last granted ≤ capacity * (n + 1) := by
  have hdiv : (last - first) / period < n := Nat.div_lt_of_lt_mul (by rwa [mul_comm])
  calc within first last granted ≤ capacity * ((last - first) / period + 2) := h.window first last
    _ ≤ capacity * (n + 1) := Nat.mul_le_mul_left _ (by omega)

end TokenBucket

end Boreas
