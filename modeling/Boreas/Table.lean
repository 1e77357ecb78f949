import Mathlib

/-! # Keyed tables

A finite map from keys to values, as Mathlib's `AList` with a constant family: at most one entry a
key, `lookup`, `insert`, `erase` and their laws come from there.  `retain` is the one operation
`AList` lacks: it drops or rewrites every entry by a function of its key and value. -/

namespace Boreas

open AList List Option

abbrev Table (κ β : Type*) := AList (fun _ : κ => β)

namespace Table

variable {κ β : Type*}

def size (t : Table κ β) : ℕ := t.entries.length

/-- The entry a `retain` function leaves of one entry. -/
def keepEntry (keep : κ → β → Option β) (e : Sigma (fun _ : κ => β)) :
    Option (Sigma (fun _ : κ => β)) := (keep e.1 e.2).map (fun v => ⟨e.1, v⟩)

theorem keys_filterMap_sublist (keep : κ → β → Option β) :
    ∀ l : List (Sigma (fun _ : κ => β)), (l.filterMap (keepEntry keep)).keys.Sublist l.keys
  | [] => List.Sublist.refl _
  | e :: l => by
    have ih := keys_filterMap_sublist keep l
    cases h : keep e.1 e.2 with
    | none => simpa [filterMap_cons, keepEntry, h, List.keys] using ih.cons e.1
    | some v => simpa [filterMap_cons, keepEntry, h, List.keys] using ih.cons_cons e.1

def retain (keep : κ → β → Option β) (t : Table κ β) : Table κ β :=
  ⟨t.entries.filterMap (keepEntry keep), (keys_filterMap_sublist keep t.entries).nodup t.nodupKeys⟩

variable [DecidableEq κ]

theorem dlookup_filterMap (keep : κ → β → Option β) (k : κ) : ∀ l : List (Sigma (fun _ : κ => β)), l.NodupKeys →
      (l.filterMap (keepEntry keep)).dlookup k = (l.dlookup k).bind (keep k)
  | [], _ => rfl
  | ⟨k', v⟩ :: l, hnd => by
    rw [nodupKeys_cons] at hnd
    have ih := dlookup_filterMap keep k l hnd.2
    by_cases hk : k = k'
    · subst hk
      rw [dlookup_cons_eq]
      cases h : keep k v with
      | none =>
        have hnone : l.dlookup k = none := dlookup_eq_none.mpr hnd.1
        simp [keepEntry, h] at ih ⊢
        simpa [hnone] using ih
      | some v' => simp [keepEntry, h]
    · rw [dlookup_cons_ne _ _ hk, ← ih]
      rcases h : keep k' v with _ | v'
      · simp [keepEntry, h]
      simp only [filterMap_cons, keepEntry, h, map_some]
      exact dlookup_cons_ne _ _ hk

variable (keep : κ → β → Option β) (f : κ → β → ℕ) (t : Table κ β) (k : κ)

@[simp] theorem lookup_retain : (retain keep t).lookup k = (t.lookup k).bind (keep k) :=
  dlookup_filterMap keep k t.entries t.nodupKeys

theorem lookup_insert_eq (k k' : κ) (v : β) : (t.insert k' v).lookup k = if k = k' then some v else t.lookup k := by
  split_ifs with h
  · subst h; exact lookup_insert t
  · exact lookup_insert_ne h

theorem forall_lookup_insert {P : κ → β → Prop} {t : Table κ β} {v : β} (hv : P k v)
    (h : ∀ k v, t.lookup k = some v → P k v) : ∀ j w, (t.insert k v).lookup j = some w → P j w := by
  intro j w hj
  rw [lookup_insert_eq] at hj
  split_ifs at hj with heq
  · cases hj
    exact heq ▸ hv
  · exact h j w hj

theorem lookup_erase_eq (k k' : κ) : (t.erase k').lookup k = if k = k' then none else t.lookup k := by
  split_ifs with h
  · subst h; exact lookup_erase k t
  · exact lookup_erase_ne h

theorem entries_isEmpty_iff {t : Table κ β} : t.entries.isEmpty = true ↔ ∀ k v, t.lookup k ≠ some v := by
  constructor
  · intro h k v
    unfold AList.lookup
    rw [List.isEmpty_iff.mp h]
    exact nofun
  · intro h
    rcases t with ⟨_ | ⟨⟨k, v⟩, l⟩, hnd⟩
    · rfl
    · exact absurd (dlookup_cons_eq l k v) (h k v)

/-! ### Totals -/

def total (f : κ → β → ℕ) (t : Table κ β) : ℕ := (t.entries.map fun e => f e.1 e.2).sum

theorem sum_kerase (l : List (Sigma (fun _ : κ => β))) :
    ((l.kerase k).map fun e => f e.1 e.2).sum + (l.dlookup k).elim 0 (f k) = (l.map fun e => f e.1 e.2).sum := by
  induction l with
  | nil => rfl
  | cons e l ih =>
    obtain ⟨k', v⟩ := e
    by_cases hk : k = k'
    · subst hk
      have hkerase : List.kerase k (⟨k, v⟩ :: l) = l := kerase_cons_eq rfl
      rw [hkerase, dlookup_cons_eq]
      simp only [map_cons, sum_cons, elim_some]
      omega
    · rw [kerase_cons_ne hk, dlookup_cons_ne _ _ hk]
      simp only [map_cons, sum_cons]
      omega

theorem total_erase : total f (t.erase k) + (t.lookup k).elim 0 (f k) = total f t := sum_kerase f k t.entries

theorem total_insert (v : β) : total f (t.insert k v) + (t.lookup k).elim 0 (f k) = total f t + f k v := by
  have h := sum_kerase f k t.entries
  have hins : total f (t.insert k v) = f k v + ((t.entries.kerase k).map fun e => f e.1 e.2).sum := by
    unfold total
    rfl
  unfold total at hins ⊢
  unfold AList.lookup
  omega

omit [DecidableEq κ] in
theorem size_retain : size (retain keep t) = total (fun k v => if (keep k v).isSome then 1 else 0) t := by
  unfold size retain total
  dsimp only
  induction t.entries with
  | nil => rfl
  | cons e l ih =>
    rcases h : keep e.1 e.2 with _ | v
    · simpa [keepEntry, h] using ih
    simp only [filterMap_cons, keepEntry, h, map_some, length_cons, map_cons,
      isSome_some, if_true, sum_cons]
    omega

omit [DecidableEq κ] in
theorem size_eq_total : size t = total (fun _ _ => 1) t := by
  simp [size, total]

theorem size_erase {t : Table κ β} {k : κ} (h : t.lookup k = some v) : size (t.erase k) + 1 = size t := by
  have htotal := total_erase (fun _ _ => 1) t k
  rw [h] at htotal
  rw [size_eq_total, size_eq_total]
  exact htotal

theorem size_insert (v : β) : size (t.insert k v) = if t.lookup k = none then size t + 1 else size t := by
  have htotal := total_insert (fun _ _ => 1) t k v
  rw [size_eq_total, size_eq_total]
  rcases hlook : t.lookup k with _ | w
  · rw [hlook] at htotal
    exact htotal
  rw [hlook] at htotal
  exact Nat.add_right_cancel htotal

theorem size_le {s t : Table κ β} (h : ∀ k v, t.lookup k = some v → (s.lookup k).isSome) : size t ≤ size s := by
  have hsub : t.keys ⊆ s.keys := by
    intro k hk
    obtain ⟨v, hv⟩ := isSome_iff_exists.mp (AList.lookup_isSome.mpr (AList.mem_keys.mpr hk))
    exact AList.mem_keys.mp (AList.lookup_isSome.mp (h k v hv))
  have hle := (t.nodupKeys.subperm hsub).length_le
  simpa [size, AList.keys, List.keys] using hle

theorem size_lt {s t : Table κ β} {k : κ} (hs : (s.lookup k).isSome) (ht : t.lookup k = none)
    (h : ∀ k v, t.lookup k = some v → (s.lookup k).isSome) : size t < size s := by
  have hle := size_le (s := s.erase k) (t := t) fun k' v hv => by
    rw [lookup_erase_eq]
    split_ifs with hk
    · rw [hk, ht] at hv
      cases hv
    · exact h k' v hv
  obtain ⟨v, hv⟩ := isSome_iff_exists.mp hs
  have hsize := size_erase hv
  omega

/-- The lowest key that is not in use. -/
def firstFree (t : Table ℕ β) : ℕ := ((List.range (t.size + 1)).find? fun k => (t.lookup k).isNone).getD t.size

theorem lookup_firstFree (t : Table ℕ β) : t.lookup (firstFree t) = none := by
  unfold firstFree
  cases hfind : (List.range (t.size + 1)).find? fun k => (t.lookup k).isNone with
  | some k => simpa using find?_some hfind
  | none =>
    -- otherwise all of one more key than there are entries would be in use
    rw [find?_eq_none] at hfind
    have hsub : List.range (t.size + 1) ⊆ t.keys := by
      intro k hmem
      have hsome := hfind k hmem
      rw [isNone_iff_eq_none, ← ne_eq, ne_none_iff_isSome] at hsome
      exact AList.mem_keys.mp (AList.lookup_isSome.mp hsome)
    have hle := (nodup_range.subperm hsub).length_le
    have hkeys : t.keys.length = t.size := by simp [AList.keys, List.keys, size]
    rw [length_range] at hle
    omega

theorem total_eq_zero {f : κ → β → ℕ} {t : Table κ β} (h : ∀ k v, t.lookup k = some v → f k v = 0) :
    total f t = 0 := by
  refine sum_eq_zero fun n hn => ?_
  obtain ⟨e, he, rfl⟩ := mem_map.mp hn
  exact h e.1 e.2 (mem_lookup_iff.mpr he)

end Table
end Boreas
