import Boreas.Table

/-! # A bounded memo

fifo.rs over any keys and values: a map that forgets its oldest entry at capacity.  The structure carries what relates
its parts.  `Memoises f` says that what is stored is `f` of its key, and `Memoises.getOrInsertWith` that asking keeps
it so. -/

namespace Boreas

open AList List

structure BoundedFifo (κ ν : Type*) [DecidableEq κ] where
  entries : Table κ ν
  order : List κ
  capacity : ℕ+
  nodup : order.Nodup
  mem_order : ∀ k, k ∈ order ↔ k ∈ entries
  bounded : order.length ≤ capacity

namespace BoundedFifo

variable {κ ν : Type*} [DecidableEq κ]

def new (capacity : ℕ+) : BoundedFifo κ ν := ⟨∅, [], capacity, nodup_nil, by simp, by simp⟩

variable (m : BoundedFifo κ ν)

def get (key : κ) : Option ν := m.entries.lookup key

theorem size_eq : m.entries.size = m.order.length := by
  have hperm : m.order.Perm m.entries.keys :=
    (perm_ext_iff_of_nodup m.nodup m.entries.keys_nodup).mpr fun k => by rw [m.mem_order k]; rfl
  rw [hperm.length_eq]
  simp [Table.size, AList.keys, List.keys]

def makeRoom : BoundedFifo κ ν :=
  if (m.capacity : ℕ) ≤ m.entries.size then
    match h : m.order with
    | [] => m
    | oldest :: rest =>
      { entries := m.entries.erase oldest
        order := rest
        capacity := m.capacity
        nodup := (nodup_cons.mp (h ▸ m.nodup)).2
        mem_order := fun k => by
          have hnot := (nodup_cons.mp (h ▸ m.nodup)).1
          have hk := m.mem_order k
          rw [h, mem_cons] at hk
          rw [mem_erase, ← hk]
          constructor
          · intro hmem
            exact ⟨fun heq => hnot (heq ▸ hmem), .inr hmem⟩
          · rintro ⟨hne, heq | hmem⟩
            · exact absurd heq hne
            · exact hmem
        bounded := by
          have hle := m.bounded
          rw [h, length_cons] at hle
          omega }
  else m

theorem makeRoom_lt : m.makeRoom.order.length < m.capacity := by
  have hpos := m.capacity.pos
  have hle := m.bounded
  unfold makeRoom
  split_ifs with hfull
  · split
    · rename_i h
      rw [h]
      exact hpos
    · rename_i h
      rw [h, length_cons] at hle
      exact hle
  · rw [m.size_eq] at hfull
    omega

variable {m : BoundedFifo κ ν}

theorem get_makeRoom (h : m.makeRoom.get k = some v) : m.get k = some v := by
  unfold makeRoom at h
  split_ifs at h
  · split at h
    · exact h
    · dsimp only [get] at h ⊢
      rw [Table.lookup_erase_eq] at h
      split_ifs at h
      exact h
  · exact h

theorem notMem_makeRoom (h : k ∉ m.entries) : k ∉ m.makeRoom.entries := by
  rw [← lookup_eq_none] at h ⊢
  rcases hget : m.makeRoom.entries.lookup k with _ | v
  · rfl
  have hold := get_makeRoom hget
  rw [get, h] at hold
  cases hold

def insert (m : BoundedFifo κ ν) (key : κ) (value : ν) : BoundedFifo κ ν :=
  if hmem : key ∈ m.entries then
    { m with
      entries := m.entries.insert key value
      mem_order := fun k => by
        rw [mem_insert, m.mem_order]
        exact ⟨.inr, fun h => h.elim (fun heq => heq ▸ hmem) id⟩ }
  else
    { entries := m.makeRoom.entries.insert key value
      order := m.makeRoom.order ++ [key]
      capacity := m.capacity
      nodup := by
        have hnot := notMem_makeRoom hmem
        rw [← m.makeRoom.mem_order] at hnot
        exact m.makeRoom.nodup.append (nodup_singleton key) (disjoint_singleton.mpr hnot)
      mem_order := fun k => by
        rw [mem_insert, mem_append, mem_singleton, m.makeRoom.mem_order]
        exact Or.comm
      bounded := by
        have := m.makeRoom_lt
        rw [length_append, length_singleton]
        omega }

theorem get_insert_self : (m.insert key value).get key = some value := by
  unfold insert
  split_ifs <;> exact lookup_insert _

theorem get_insert_of_ne (hne : k ≠ key) (h : (m.insert key value).get k = some v) : m.get k = some v := by
  unfold insert at h
  split_ifs at h
  · dsimp only [get] at h
    rwa [lookup_insert_ne hne] at h
  · dsimp only [get] at h
    rw [lookup_insert_ne hne] at h
    exact get_makeRoom h

def getOrInsertWith (m : BoundedFifo κ ν) (key : κ) (make : Unit → ν) : ν × BoundedFifo κ ν :=
  match m.get key with
  | some existing => (existing, m)
  | none => (make (), m.insert key (make ()))

def clear (m : BoundedFifo κ ν) : BoundedFifo κ ν :=
  ⟨∅, [], m.capacity, nodup_nil, by simp, Nat.zero_le _⟩

/-! ### Memos of a function -/

/-- What is stored under a key is what `f` gives for it; only keys in `s` are stored. -/
def Memoises (s : Set κ) (f : κ → ν) (m : BoundedFifo κ ν) : Prop := ∀ k v, m.get k = some v → k ∈ s ∧ v = f k

theorem memoises_new (f : κ → ν) (cap : ℕ+) : Memoises s f (new cap) := nofun

theorem Memoises.insert (h : Memoises s f m) (hkey : key ∈ s) : Memoises s f (m.insert key (f key)) := by
  intro k v hget
  by_cases hk : k = key
  · subst hk
    rw [get_insert_self] at hget
    cases hget
    exact ⟨hkey, rfl⟩
  · exact h k v (get_insert_of_ne hk hget)

/-- **A memo answers as its function does**, and stays a memo of it. -/
theorem Memoises.getOrInsertWith (h : Memoises s f m)
    (hkey : key ∈ s) : (m.getOrInsertWith key (fun _ => f key)).1 = f key ∧
      Memoises s f (m.getOrInsertWith key (fun _ => f key)).2 := by
  unfold BoundedFifo.getOrInsertWith
  cases hget : m.get key with
  | none => exact ⟨rfl, h.insert hkey⟩
  | some v => exact ⟨(h key v hget).2, h⟩

/-! ### Where an entry comes from -/

section
variable {τ : Type*} {R : κ → τ → ν → Prop} {source : κ → Option τ} {m : BoundedFifo κ ν}

/-- What is stored under a key is related by `R` to the source last noted for the key. -/
def Sourced (R : κ → τ → ν → Prop) (source : κ → Option τ) (m : BoundedFifo κ ν) : Prop :=
  ∀ k v, m.get k = some v → ∃ t, source k = some t ∧ R k t v

theorem sourced_new (cap : ℕ+) : Sourced R source (new cap) :=
  nofun

theorem sourced_clear : Sourced R source m.clear := nofun

theorem Sourced.mono (h : Sourced R source m) (hR : ∀ k t v, R k t v → R' k t v) :
    Sourced R' source m := fun k v hget =>
  let ⟨t, hsrc, hrel⟩ := h k v hget
  ⟨t, hsrc, hR k t v hrel⟩

theorem Sourced.insert (h : Sourced R source m) (hrel : R key t v) :
    Sourced R (Function.update source key (some t)) (m.insert key v) := by
  intro k w hget
  by_cases hk : k = key
  · subst hk
    rw [get_insert_self] at hget
    cases hget
    exact ⟨t, Function.update_self _ _ _, hrel⟩
  · rw [Function.update_of_ne hk]
    exact h k w (get_insert_of_ne hk hget)

end

end BoundedFifo

end Boreas
