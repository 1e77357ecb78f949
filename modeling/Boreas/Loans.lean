import Boreas.Pool
import Boreas.Runs
import Boreas.Wire

/-! # Loans of the pool

The buffers of pool.rs with the bytes that are visible of each: those in the free list and those on loan.  `Account`
says what the pool is for: it lends up to its capacity, and a loan shows what was written to it.  The pool keeps that
account (`account_kept`), though its buffers are used again. -/

namespace Boreas.Loans

open List Runs Slices

inductive Op
  | take (bytes : Bytes)
  | takeZeroed (len : ℕ)
  | resize (loan len : ℕ)
  | write (loan at_ : ℕ) (bytes : Bytes)
  | drop (loan : ℕ)

abbrev Lent := List (ℕ × Bytes)

def onLoan (loans : Lent) (loan : ℕ) (edit : Bytes → Bytes) : Lent :=
  loans.map fun l => if l.1 = loan then (l.1, edit l.2) else l

/-- A write through `DerefMut` stays within the loan. -/
def written (at_ : ℕ) (bytes buffer : Bytes) : Bytes :=
  if at_ + bytes.length ≤ buffer.length then overwrite buffer at_ bytes else buffer

/-- The pool, the buffers in its free list, and those on loan with their numbers. -/
structure Lending where
  pool : BufferPool
  free : List Bytes
  loans : Lent
  next : ℕ

namespace Lending

def new (sliceSize capacity : ℕ+) : Lending := ⟨.new sliceSize capacity, [], [], 0⟩

def lend (s : Lending) (len : ℕ) (fill : Bytes → Bytes) : Lending :=
  match s.pool.reserve len with
  | (pool, false) => { s with pool := pool }
  | (pool, true) => ⟨pool, s.free.tail, (s.next, fill (s.free.headD [])) :: s.loans, s.next + 1⟩

def step (s : Lending) : Op → Lending
  | .take bytes => s.lend bytes.length (· ++ bytes)
  | .takeZeroed len => s.lend len (resize · len 0)
  | .resize loan len =>
    if len ≤ s.pool.sliceSize then { s with loans := onLoan s.loans loan (resize · len 0) } else s
  | .write loan at_ bytes => { s with loans := onLoan s.loans loan (written at_ bytes) }
  | .drop loan =>
    match s.loans.find? (fun l => l.1 = loan) with
    | none => s
    | some l => ⟨s.pool.release, l.2.take 0 :: s.free, s.loans.eraseP (fun l => l.1 = loan), s.next⟩

end Lending

/-- What is lent, and how often nothing was left to lend. -/
structure Account where
  loans : Lent
  next : ℕ
  exhausted : ℕ

variable (sliceSize capacity : ℕ+)

def Account.lend (a : Account) (bytes : Bytes) : Account :=
  if sliceSize < bytes.length then a
  else if a.loans.length = capacity then { a with exhausted := min (a.exhausted + 1) BufferPool.u64Max }
  else { a with loans := (a.next, bytes) :: a.loans, next := a.next + 1 }

def Account.step (a : Account) : Op → Account
  | .take bytes => a.lend sliceSize capacity bytes
  | .takeZeroed len => a.lend sliceSize capacity (replicate len 0)
  | .resize loan len => if len ≤ sliceSize then { a with loans := onLoan a.loans loan (resize · len 0) } else a
  | .write loan at_ bytes => { a with loans := onLoan a.loans loan (written at_ bytes) }
  | .drop loan => { a with loans := a.loans.eraseP fun l => l.1 = loan }

/-- The pool keeps the account: buffers on loan and in the free list are those allocated, and those in the list are
empty. -/
structure Keeps (s : Lending) (a : Account) : Prop where
  sizes : s.pool.sliceSize = sliceSize ∧ s.pool.capacity = capacity
  loans : s.loans = a.loans
  next : s.next = a.next
  exhausted : s.pool.exhausted = a.exhausted
  free : s.free = replicate s.pool.free []
  live : s.loans.length + s.pool.free = s.pool.live ∧ s.pool.live ≤ capacity

variable {sliceSize capacity}

theorem Keeps.lend (h : Keeps sliceSize capacity s a) (fill : Bytes → Bytes) (hfill : fill [] = bytes) :
    Keeps sliceSize capacity (s.lend bytes.length fill) (a.lend sliceSize capacity bytes) := by
  obtain ⟨⟨rfl, rfl⟩, hloans, hnext, hexh, hfree, hlive, hle⟩ := h
  have hlen := congrArg length hloans
  unfold Lending.lend Account.lend BufferPool.reserve
  by_cases hsize : s.pool.sliceSize < bytes.length
  · rw [if_pos hsize, if_pos hsize]
    exact ⟨⟨rfl, rfl⟩, hloans, hnext, hexh, hfree, hlive, hle⟩
  rw [if_neg hsize, if_neg hsize]
  by_cases hcached : 0 < s.pool.free
  · obtain ⟨n, hn⟩ := Nat.exists_eq_add_of_lt hcached
    rw [dif_pos hcached, if_neg (by omega)]
    rw [hn, Nat.zero_add, replicate_succ] at hfree
    refine ⟨⟨rfl, rfl⟩, ?_, congrArg (· + 1) hnext, hexh, ?_, ?_, hle⟩
    · simp only [hfree, headD_cons, hfill, hnext, hloans]
    · simp [hfree, hn]
    · simp only [length_cons]
      omega
  · rw [dif_neg hcached]
    have hnil : s.free = [] := by simp [hfree, Nat.eq_zero_of_not_pos hcached]
    by_cases hfull : s.pool.capacity ≤ s.pool.live
    · rw [dif_pos hfull, if_pos (by omega)]
      exact ⟨⟨rfl, rfl⟩, hloans, hnext, by rw [hexh], hfree, hlive, hle⟩
    rw [dif_neg hfull, if_neg (by omega)]
    refine ⟨⟨rfl, rfl⟩, ?_, congrArg (· + 1) hnext, hexh, ?_, ?_, ?_⟩
    · simp only [hnil, headD_nil, hfill, hnext, hloans]
    · rw [hnil, tail_nil, ← hnil, hfree]
    · simp only [length_cons]
      omega
    · simp only
      omega

theorem Keeps.edit (h : Keeps sliceSize capacity s a) (loan : ℕ) (edit : Bytes → Bytes) :
    Keeps sliceSize capacity { s with loans := onLoan s.loans loan edit } { a with loans := onLoan a.loans loan edit } where
  __ := h
  loans := congrArg (onLoan · loan edit) h.loans
  live := by simpa [onLoan] using h.live

theorem Keeps.step (h : Keeps sliceSize capacity s a) (op : Op) :
    Keeps sliceSize capacity (s.step op) (a.step sliceSize capacity op) := by
  cases op with
  | take bytes => exact h.lend (· ++ bytes) (nil_append bytes)
  | takeZeroed len =>
    have hlend := h.lend (resize · len 0) (show resize [] len 0 = replicate len 0 by simp [resize])
    rwa [length_replicate] at hlend
  | resize loan len =>
    dsimp only [Lending.step, Account.step]
    rw [h.sizes.1]
    split_ifs
    · exact h.edit loan _
    · exact h
  | write loan at_ bytes => exact h.edit loan _
  | drop loan =>
    dsimp only [Lending.step, Account.step]
    rw [← h.loans]
    cases hfind : s.loans.find? (fun l => l.1 = loan) with
    | none =>
      rw [eraseP_of_forall_not (by simpa using hfind)]
      exact { h with loans := rfl }
    | some l =>
      have hlen := length_eraseP_of_mem (mem_of_find?_eq_some hfind) (find?_some hfind)
      have hpos := length_pos_of_mem (mem_of_find?_eq_some hfind)
      obtain ⟨hlive, hle⟩ := h.live
      unfold BufferPool.release
      rw [dif_pos (by omega)]
      refine ⟨h.sizes, rfl, h.next, h.exhausted, congrArg (cons []) h.free, ?_, hle⟩
      simp only [hlen]
      omega

/-- **The pool keeps the account**, whatever is lent, resized, written and dropped. -/
theorem account_kept (sliceSize capacity : ℕ+) (ops : List Op) :
    Keeps sliceSize capacity (run Lending.step (.new sliceSize capacity) ops)
      (run (Account.step sliceSize capacity) ⟨[], 0, 0⟩ ops) := by
  induction ops using reverseRecOn with
  | nil => exact ⟨⟨rfl, rfl⟩, rfl, rfl, rfl, rfl, rfl, Nat.zero_le _⟩
  | append_singleton ops op ih =>
    rw [run_snoc, run_snoc]
    exact ih.step op

end Boreas.Loans
