import Mathlib

/-! # Slices of a list

`slice xs i n` is the part of `xs` of length `n` from index `i` on, `overwrite xs i ys` is `xs` with `ys` written over
it from `i` on, and `resize xs n a` cuts or fills `xs` to length `n`.  `Stands xs i ys` says that `ys` can be read in
`xs` from index `i` on.  `swapRemove p xs` removes the first element that meets `p` as `Vec::swap_remove` does. -/

namespace Boreas.Slices

open List

variable {α : Type*}

def slice (xs : List α) (i n : ℕ) : List α := (xs.drop i).take n

def overwrite (xs : List α) (i : ℕ) (ys : List α) : List α :=
  xs.take i ++ ys ++ xs.drop (i + ys.length)

def resize (xs : List α) (n : ℕ) (a : α) : List α := xs.take n ++ List.replicate (n - xs.length) a

theorem getElem?_slice (xs : List α) (i n j : ℕ) : (slice xs i n)[j]? = if j < n then xs[i + j]? else none := by
  unfold slice
  rw [getElem?_take, getElem?_drop]

theorem length_slice (h : i + n ≤ xs.length) : (slice xs i n).length = n := by
  simp only [slice, length_take, length_drop]
  omega

theorem slice_add : slice xs i (m + n) = slice xs i m ++ slice xs (i + m) n := by
  unfold slice
  rw [take_add, drop_drop]

theorem slice_append_left (h : i + n ≤ xs.length) : slice (xs ++ ys) i n = slice xs i n := by
  apply ext_getElem?
  intro j
  rw [getElem?_slice, getElem?_slice]
  split_ifs with hj
  · exact getElem?_append_left (by omega)
  · rfl

variable {xs ys : List α} {i : ℕ}

theorem length_overwrite (h : i + ys.length ≤ xs.length) : (overwrite xs i ys).length = xs.length := by
  simp only [overwrite, length_append, length_take, length_drop]
  omega

theorem getElem?_overwrite (h : i + ys.length ≤ xs.length) (j : ℕ) :
    (overwrite xs i ys)[j]? = if i ≤ j ∧ j < i + ys.length then ys[j - i]? else xs[j]? := by
  have hlen : (xs.take i).length = i := by rw [length_take]; omega
  unfold overwrite
  rw [append_assoc]
  rcases Nat.lt_or_ge j i with hj | hj
  · rw [getElem?_append_left (by omega), getElem?_take, if_pos hj, if_neg (by omega)]
  rw [getElem?_append_right (by omega), hlen]
  rcases Nat.lt_or_ge j (i + ys.length) with hj' | hj'
  · rw [getElem?_append_left (by omega), if_pos ⟨hj, hj'⟩]
  · rw [getElem?_append_right (by omega), getElem?_drop, if_neg (by omega)]
    congr 1
    omega

theorem slice_overwrite (h : i + ys.length ≤ xs.length) : slice (overwrite xs i ys) i ys.length = ys := by
  apply ext_getElem?
  intro j
  rw [getElem?_slice, getElem?_overwrite h]
  split_ifs with hj hj'
  · congr 1
    omega
  · omega
  · rw [getElem?_eq_none (by omega)]

theorem slice_overwrite_of_disjoint (h : i + ys.length ≤ xs.length)
    (hd : lo + n ≤ i ∨ i + ys.length ≤ lo) : slice (overwrite xs i ys) lo n = slice xs lo n := by
  apply ext_getElem?
  intro j
  rw [getElem?_slice, getElem?_slice, getElem?_overwrite h]
  split_ifs with hj hj'
  · omega
  · rfl
  · rfl

theorem overwrite_overwrite (h : i + ys.length ≤ xs.length)
    (hlen : zs.length = ys.length) : overwrite (overwrite xs i ys) i zs = overwrite xs i zs := by
  apply ext_getElem?
  intro j
  rw [getElem?_overwrite (by rw [length_overwrite h]; omega), getElem?_overwrite h, getElem?_overwrite (by omega),
    hlen]
  split_ifs <;> rfl

theorem overwrite_consecutive (h : i + ys.length + zs.length ≤ xs.length) :
    overwrite (overwrite xs i ys) (i + ys.length) zs = overwrite xs i (ys ++ zs) := by
  have hfit : i + (ys ++ zs).length ≤ xs.length := by rw [length_append]; omega
  apply ext_getElem?
  intro j
  rw [getElem?_overwrite (by rw [length_overwrite (by omega)]; exact h), getElem?_overwrite (by omega),
    getElem?_overwrite hfit, length_append]
  by_cases h1 : i + ys.length ≤ j ∧ j < i + ys.length + zs.length
  · rw [if_pos h1, if_pos (by omega), getElem?_append_right (by omega)]
    congr 1
    omega
  · rw [if_neg h1]
    by_cases h2 : i ≤ j ∧ j < i + ys.length
    · rw [if_pos h2, if_pos (by omega), getElem?_append_left (by omega)]
    · rw [if_neg h2, if_neg (by omega)]

theorem overwrite_middle {old : List α} (ys : List α) (hi : xs.length = i)
    (hlen : new.length = old.length) : overwrite (xs ++ (old ++ ys)) i new = xs ++ (new ++ ys) := by
  subst hi
  unfold overwrite
  rw [take_left, append_assoc, ← drop_drop, drop_left, hlen, drop_left]

theorem take_overwrite (hin : i + ys.length ≤ n) (hn : n ≤ xs.length) :
    (overwrite xs i ys).take n = overwrite (xs.take n) i ys := by
  have hlen : (xs.take n).length = n := length_take_of_le hn
  apply ext_getElem?
  intro j
  rw [getElem?_take, getElem?_overwrite (by omega), getElem?_overwrite (by omega), getElem?_take]
  by_cases hj : j < n
  · rw [if_pos hj, if_pos hj]
  · rw [if_neg hj, if_neg (by omega), if_neg hj]

theorem take_overwrite_stop (h : i + ys.length ≤ xs.length) :
    (overwrite xs i ys).take (i + ys.length) = xs.take i ++ ys := by
  have hlen : (xs.take i ++ ys).length = i + ys.length := by
    rw [length_append, length_take]
    omega
  unfold overwrite
  rw [take_append_of_le_length (by omega), take_of_length_le (by omega)]

theorem overwrite_append_left (zs : List α) (h : i + ys.length ≤ xs.length) :
    overwrite (xs ++ zs) i ys = overwrite xs i ys ++ zs := by
  unfold overwrite
  rw [take_append_of_le_length (by omega), drop_append_of_le_length h]
  simp only [append_assoc]

theorem length_resize : (resize xs n a).length = n := by
  simp only [resize, length_append, length_take, length_replicate]
  omega

theorem slice_resize (a : α) (h : i + n ≤ xs.length) (hm : xs.length ≤ m) :
    slice (resize xs m a) i n = slice xs i n := by
  unfold resize
  rw [take_of_length_le hm]
  exact slice_append_left h

/-! ### Standing at an index -/

def Stands (xs : List α) (i : ℕ) (ys : List α) : Prop := ∀ j, j < ys.length → xs[i + j]? = ys[j]?

theorem stands_nil : Stands xs i [] := by
  intro j hj
  simp at hj

theorem stands_cons : Stands xs i (y :: ys) ↔ xs[i]? = some y ∧ Stands xs (i + 1) ys := by
  constructor
  · intro h
    refine ⟨by simpa using h 0 (by simp), fun j hj => ?_⟩
    have := h (j + 1) (by simpa using hj)
    rw [getElem?_cons_succ] at this
    rw [← this]
    congr 1
    omega
  · rintro ⟨hy, h⟩ j hj
    cases j with
    | zero => simpa using hy
    | succ j =>
      rw [getElem?_cons_succ, ← h j (by simpa using hj)]
      congr 1
      omega

theorem stands_append : Stands xs i (ys ++ zs) ↔ Stands xs i ys ∧ Stands xs (i + ys.length) zs := by
  induction ys generalizing i with
  | nil => simp [stands_nil]
  | cons y ys ih =>
    rw [cons_append, stands_cons, stands_cons, ih, length_cons]
    have hidx : i + 1 + ys.length = i + (ys.length + 1) := by omega
    rw [hidx, and_assoc]

theorem stands_middle (pre ys post : List α) : Stands (pre ++ ys ++ post) pre.length ys := by
  intro j hj
  rw [append_assoc, getElem?_append_right (by omega), Nat.add_sub_cancel_left,
    getElem?_append_left hj]

theorem Stands.le_length (h : Stands xs i ys) (hne : ys ≠ []) : i + ys.length ≤ xs.length := by
  have hpos := length_pos_iff.mpr hne
  have hlast := h (ys.length - 1) (by omega)
  rw [getElem?_eq_getElem (show ys.length - 1 < ys.length by omega)] at hlast
  have := (List.getElem?_eq_some_iff.mp hlast).1
  omega

theorem Stands.slice_eq (h : Stands xs i ys) : slice xs i ys.length = ys := by
  apply ext_getElem?
  intro j
  rw [getElem?_slice]
  split_ifs with hj
  · exact h j hj
  · rw [getElem?_eq_none (by omega)]

theorem stands_slice (h : i + n ≤ xs.length) : Stands xs i (slice xs i n) := by
  intro j hj
  rw [length_slice h] at hj
  rw [getElem?_slice, if_pos hj]

theorem stands_self (xs : List α) : Stands xs 0 xs := by
  intro j _
  rw [Nat.zero_add]

theorem Stands.transfer (h : Stands xs i ys)
    (hagree : ∀ j, j < n → xs'[i' + j]? = xs[i + j]?) (hn : ys.length ≤ n) : Stands xs' i' ys := by
  intro j hj
  rw [hagree j (by omega)]
  exact h j hj

/-! ### Removing by a swap -/

/-- The last element takes the place of the removed one. -/
def swapRemove (p : α → Bool) : List α → List α
  | [] => []
  | x :: xs =>
    if p x then
      match xs.getLast? with
      | none => []
      | some last => last :: xs.dropLast
    else x :: swapRemove p xs

theorem swapRemove_perm (p : α → Bool) : ∀ xs : List α, (swapRemove p xs).Perm (xs.eraseP p)
  | [] => List.Perm.nil
  | x :: xs => by
    unfold swapRemove
    by_cases hx : p x = true
    · rw [if_pos hx, eraseP_cons_of_pos hx]
      rcases hlast : xs.getLast? with _ | last
      · rw [getLast?_eq_none_iff.mp hlast]
      obtain ⟨front, rfl⟩ := getLast?_eq_some_iff.mp hlast
      rw [dropLast_concat]
      exact (perm_append_singleton last front).symm
    · rw [if_neg hx, eraseP_cons_of_neg hx]
      exact (swapRemove_perm p xs).cons x

end Boreas.Slices
