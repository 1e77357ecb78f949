import Mathlib

/-! # Bitmaps of 64-bit words

A bitmap is an array of `n` words of 64 bits; bit `i` is bit `i % 64` of word `i / 64`.  `test` reads a bit
with a mask, `set` and `setRange` set bits.  `test_set`, `test_setRange` and `count_setRange` are all that
proofs about a bitmap use. -/

namespace Boreas

open List

/-! ### Masks of one bit -/

theorem getLsbD_one_shiftLeft (i : ℕ) (hj : j < 64) : (1#64 <<< i).getLsbD j = decide (j = i) := by
  rcases Nat.lt_trichotomy j i with h | h | h
  · simp [h]; omega
  · subst h; simp [hj]
  · have h1 : ¬ j < i := by omega
    have h2 : j - i ≠ 0 := by omega
    simp [h1, h2, BitVec.getLsbD_one]; omega

theorem and_one_shiftLeft_ne_zero (i : ℕ) (hi : i < 64) : x &&& (1#64 <<< i) ≠ 0 ↔ x.getLsbD i = true := by
  constructor
  · intro h
    by_contra hbit
    apply h
    apply BitVec.eq_of_getLsbD_eq
    intro j hj
    rw [BitVec.getLsbD_and, getLsbD_one_shiftLeft i hj]
    by_cases hji : j = i
    · subst hji; simp [hbit]
    · simp [hji]
  · intro h h0
    have hbit := congrArg (fun y => y.getLsbD i) h0
    simp only [BitVec.getLsbD_and, h, getLsbD_one_shiftLeft i hi] at hbit
    simp at hbit

/-! ### Bitmaps -/

abbrev Bitmap (n : ℕ) := Fin n → BitVec 64

namespace Bitmap

variable {n : ℕ} [NeZero n]

def word (i : ℕ) : Fin n := Fin.ofNat n (i / 64)

variable (b : Bitmap n)

def test (i : ℕ) : Bool := b (word i) &&& (1#64 <<< (i % 64)) ≠ 0

def set (i : ℕ) : Bitmap n :=
  Function.update b (word i) (b (word i) ||| (1#64 <<< (i % 64)))

def setRange (first last : ℕ) : Bitmap n :=
  (List.range' first (last + 1 - first)).foldl set b

theorem test_iff (i : ℕ) : b.test i = true ↔ (b (word i)).getLsbD (i % 64) = true := by
  rw [← and_one_shiftLeft_ne_zero _ (Nat.mod_lt _ (by decide))]
  simp [test]

@[simp] theorem test_zero (i : ℕ) : test (fun _ => 0#64 : Bitmap n) i = false := by
  simp [test]

theorem word_eq_iff (hi : i < 64 * n) (hj : j < 64 * n) : (word i : Fin n) = word j ↔ i / 64 = j / 64 := by
  have h1 : i / 64 < n := by omega
  have h2 : j / 64 < n := by omega
  rw [Fin.ext_iff]
  simp [word, Nat.mod_eq_of_lt h1, Nat.mod_eq_of_lt h2]

theorem test_set (hi : i < 64 * n) (hj : j < 64 * n) : (b.set i).test j = true ↔ j = i ∨ b.test j = true := by
  rw [test_iff, test_iff, set]
  by_cases hw : (word j : Fin n) = word i
  · have hdiv := (word_eq_iff hj hi).mp hw
    have hmod : j % 64 = i % 64 ↔ j = i := by omega
    rw [hw, Function.update_self, BitVec.getLsbD_or, getLsbD_one_shiftLeft _ (Nat.mod_lt _ (by decide))]
    simp [hmod, or_comm]
  · have hne : j ≠ i := fun h => hw (by rw [h])
    rw [Function.update_of_ne hw]
    simp [hne]

theorem test_foldl_set (j : ℕ) (hj : j < 64 * n) : ∀ (l : List ℕ) (b : Bitmap n), (∀ i ∈ l, i < 64 * n) →
    ((l.foldl set b).test j = true ↔ j ∈ l ∨ b.test j = true)
  | [], b, _ => by simp
  | i :: l, b, hl => by
    rw [foldl_cons, test_foldl_set j hj l (b.set i) (fun k hk => hl k (mem_cons_of_mem _ hk)),
      test_set b (hl i mem_cons_self) hj, mem_cons]
    tauto

theorem test_setRange (hlast : last < 64 * n) (hj : j < 64 * n) :
    (b.setRange first last).test j = true ↔ (first ≤ j ∧ j ≤ last) ∨ b.test j = true := by
  unfold setRange
  rw [test_foldl_set j hj]
  · rw [mem_range'_1]
    constructor <;> rintro (h | h)
    · exact .inl (by omega)
    · exact .inr h
    · exact .inl (by omega)
    · exact .inr h
  · intro i hi
    rw [mem_range'_1] at hi
    omega

/-! ### Counting -/

def count : ℕ := ((Finset.range (64 * n)).filter fun i => b.test i = true).card

@[simp] theorem count_zero : count (fun _ => 0#64 : Bitmap n) = 0 := by
  simp [count]

theorem count_setRange (hlast : last < 64 * n) (hclear : ∀ i, first ≤ i → i ≤ last → b.test i = false) :
    (b.setRange first last).count = b.count + (last + 1 - first) := by
  have hsplit : (Finset.range (64 * n)).filter (fun i => (b.setRange first last).test i = true) =
      (Finset.range (64 * n)).filter (fun i => b.test i = true) ∪ Finset.Icc first last := by
    ext i
    simp only [Finset.mem_filter, Finset.mem_range, Finset.mem_union, Finset.mem_Icc]
    constructor
    · rintro ⟨hi, hset⟩
      exact ((test_setRange b hlast hi).mp hset).elim .inr fun h => .inl ⟨hi, h⟩
    · rintro (⟨hi, hset⟩ | hin)
      · exact ⟨hi, (test_setRange b hlast hi).mpr (.inr hset)⟩
      · have hi : i < 64 * n := by omega
        exact ⟨hi, (test_setRange b hlast hi).mpr (.inl hin)⟩
  have hdisjoint : Disjoint ((Finset.range (64 * n)).filter fun i => b.test i = true) (Finset.Icc first last) := by
    rw [Finset.disjoint_left]
    intro i hset hin
    rw [Finset.mem_filter] at hset
    rw [Finset.mem_Icc] at hin
    rw [hclear i hin.1 hin.2] at hset
    exact absurd hset.2 (by decide)
  unfold count
  rw [hsplit, Finset.card_union_of_disjoint hdisjoint, Nat.card_Icc]

end Bitmap
end Boreas
