import Mathlib

/-! # Tilings of an interval by counting

Pieces of the natural numbers are given by their bounds `lo` and `hi`.  `Tiles lo hi a n ps` says that the
pieces `ps`, in this order, lie end to end from `a` to `n`.

`tiles_of_sum_eq` is the counting argument: non-empty pieces that do not overlap, lie below `n` and have
`n` points in total tile the interval from `0` to `n` once they are sorted. -/

namespace Boreas.Tiling

open List

variable {α : Type*}

def Tiles (lo hi : α → ℕ) (a n : ℕ) : List α → Prop
  | [] => a = n
  | p :: ps => lo p = a ∧ Tiles lo hi (hi p) n ps

def points (lo hi : α → ℕ) (ps : List α) : ℕ := (ps.map (fun p => hi p - lo p)).sum

def Apart (lo hi : α → ℕ) (p q : α) : Prop := hi p ≤ lo q ∨ hi q ≤ lo p

variable {lo hi : α → ℕ}

theorem Apart.symm (h : Apart lo hi p q) : Apart lo hi q p := Or.symm h

theorem Tiles.le {n : ℕ} : ∀ {a : ℕ} {ps : List α}, Tiles lo hi a n ps → (∀ p ∈ ps, lo p ≤ hi p) → a ≤ n
  | _, [], h, _ => le_of_eq h
  | a, p :: ps, h, hle => by
    have hp := hle p mem_cons_self
    have ih := Tiles.le h.2 (fun q hq => hle q (mem_cons_of_mem _ hq))
    have := h.1
    omega

theorem Tiles.points_add {n : ℕ} : ∀ {a : ℕ} {ps : List α}, Tiles lo hi a n ps → (∀ p ∈ ps, lo p ≤ hi p) →
    points lo hi ps + a = n
  | _, [], h, _ => by simpa [points, Tiles] using h
  | a, p :: ps, h, hle => by
    have hp := hle p mem_cons_self
    have hstart := h.1
    have ih := Tiles.points_add h.2 (fun q hq => hle q (mem_cons_of_mem _ hq))
    simp only [points, map_cons, sum_cons] at ih ⊢
    omega

theorem Tiles.mem {n : ℕ} : ∀ {a : ℕ} {ps : List α}, Tiles lo hi a n ps → (∀ p ∈ ps, lo p ≤ hi p) →
    ∀ p ∈ ps, a ≤ lo p ∧ hi p ≤ n
  | _, [], _, _ => nofun
  | a, p :: ps, h, hle => by
    have hp := hle p mem_cons_self
    have hle' : ∀ q ∈ ps, lo q ≤ hi q := fun q hq => hle q (mem_cons_of_mem _ hq)
    have hend := h.2.le hle'
    have hstart := h.1
    intro q hq
    rcases mem_cons.mp hq with rfl | hq
    · omega
    · have := Tiles.mem h.2 hle' q hq
      omega

theorem Tiles.apart {n : ℕ} : ∀ {a : ℕ} {ps : List α}, Tiles lo hi a n ps → (∀ p ∈ ps, lo p ≤ hi p) →
    ps.Pairwise (Apart lo hi)
  | _, [], _, _ => List.Pairwise.nil
  | a, p :: ps, h, hle => by
    have hle' : ∀ q ∈ ps, lo q ≤ hi q := fun q hq => hle q (mem_cons_of_mem _ hq)
    exact List.Pairwise.cons (fun q hq => .inl (h.2.mem hle' q hq).1) (Tiles.apart h.2 hle')

/-- Ordered pieces between `a` and `n` hold no more points than lie there, and tile it if they hold all. -/
theorem points_le {n : ℕ} : ∀ {a : ℕ} {ps : List α}, ps.Pairwise (fun p q => hi p ≤ lo q) →
    (∀ p ∈ ps, a ≤ lo p ∧ lo p < hi p ∧ hi p ≤ n) → a ≤ n →
      points lo hi ps + a ≤ n ∧ (points lo hi ps + a = n → Tiles lo hi a n ps)
  | _, [], _, _, ha => by simpa [points, Tiles] using ha
  | a, p :: ps, hord, hin, _ => by
    rw [pairwise_cons] at hord
    have hp := hin p mem_cons_self
    obtain ⟨hle, htiles⟩ := points_le hord.2 (fun q hq => ⟨hord.1 q hq, (hin q (mem_cons_of_mem _ hq)).2⟩) hp.2.2
    have hcons : points lo hi (p :: ps) = (hi p - lo p) + points lo hi ps := by simp [points]
    exact ⟨by omega, fun hsum => ⟨by omega, htiles (by omega)⟩⟩

theorem ordered_of_sorted {ps : List α} (hsort : ps.Pairwise (fun p q => lo p ≤ lo q))
    (hapart : ps.Pairwise (Apart lo hi)) (hne : ∀ p ∈ ps, lo p < hi p) : ps.Pairwise (fun p q => hi p ≤ lo q) := by
  have hboth := hsort.and hapart
  refine hboth.imp_of_mem ?_
  rintro p q hp hq ⟨hle, hpq | hqp⟩
  · exact hpq
  · have := hne q hq
    omega

/-- **Counting gives a tiling**: some order of the pieces lies end to end from `0` to `n`. -/
theorem tiles_of_sum_eq (hapart : ps.Pairwise (Apart lo hi))
    (hin : ∀ p ∈ ps, lo p < hi p ∧ hi p ≤ n) (hsum : points lo hi ps = n) :
    ∃ qs, qs.Perm ps ∧ Tiles lo hi 0 n qs := by
  let qs := ps.mergeSort (fun p q => decide (lo p ≤ lo q))
  have hperm : qs.Perm ps := mergeSort_perm _ _
  have hsort : qs.Pairwise (fun p q => lo p ≤ lo q) := by
    have h : qs.Pairwise (fun p q => decide (lo p ≤ lo q) = true) := by
      apply pairwise_mergeSort
      · intro a b c hab hbc
        simp only [decide_eq_true_eq] at hab hbc ⊢
        omega
      · simp only [Bool.or_eq_true, decide_eq_true_eq]
        omega
    exact h.imp (fun h => of_decide_eq_true h)
  have hin' : ∀ p ∈ qs, lo p < hi p ∧ hi p ≤ n := fun p hp => hin p (hperm.mem_iff.mp hp)
  have hapart' : qs.Pairwise (Apart lo hi) := hperm.symm.pairwise hapart Apart.symm
  have hord := ordered_of_sorted hsort hapart' (fun p hp => (hin' p hp).1)
  have hsum' : points lo hi qs = n := by
    rw [← hsum]
    exact (hperm.map _).sum_eq
  exact ⟨qs, hperm, (points_le hord (fun p hp => ⟨Nat.zero_le _, hin' p hp⟩) (Nat.zero_le n)).2 hsum'⟩

end Boreas.Tiling
