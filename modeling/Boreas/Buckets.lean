import Boreas.Slices

/-! # An index of keys by time

Keys in buckets, one for each time, in the order of the times.  `Filed es t k` says that the bucket of `t` holds
`k`.  For an index that is `Ordered` and holds each key once, the lemmas say what each operation does to `Filed`. -/

namespace Boreas.Buckets

open List Slices

variable {τ κ : Type*} [LinearOrder τ]

def file (t : τ) (k : κ) : List (τ × List κ) → List (τ × List κ)
  | [] => [(t, [k])]
  | (u, ks) :: rest =>
    if t < u then (t, [k]) :: (u, ks) :: rest
    else if t = u then (u, ks ++ [k]) :: rest
    else (u, ks) :: file t k rest

def forget [DecidableEq κ] (t : τ) (k : κ) : List (τ × List κ) → List (τ × List κ)
  | [] => []
  | (u, ks) :: rest =>
    if u = t then
      if (swapRemove (k == ·) ks).isEmpty then rest else (u, swapRemove (k == ·) ks) :: rest
    else (u, ks) :: forget t k rest

def due (now : τ) (es : List (τ × List κ)) : List (τ × List κ) := es.takeWhile fun b => b.1 ≤ now

def later (now : τ) (es : List (τ × List κ)) : List (τ × List κ) := es.dropWhile fun b => b.1 ≤ now

variable (es : List (τ × List κ))

def keys : List κ := es.flatMap Prod.snd

def Filed (t : τ) (k : κ) : Prop := ∃ b ∈ es, b.1 = t ∧ k ∈ b.2

structure Ordered (es : List (τ × List κ)) : Prop where
  sorted : es.Pairwise fun a b => a.1 < b.1
  nonempty : ∀ b ∈ es, b.2 ≠ []

/-- What is filed, with the time of its bucket. -/
def entries : List (τ × κ) := es.flatMap fun b => b.2.map (b.1, ·)

variable {es : List (τ × List κ)} {k : κ} {b : τ × List κ} {t : τ} {P : τ × List κ → Prop}

omit [LinearOrder τ] in
theorem filed_iff : Filed es t k ↔ (t, k) ∈ entries es := by
  simp [Filed, entries, and_left_comm]

omit [LinearOrder τ] in
theorem keys_eq (es : List (τ × List κ)) : keys es = (entries es).map Prod.snd := by
  simp [keys, entries, map_flatMap, Function.comp_def]

omit [LinearOrder τ] in
theorem mem_keys : k ∈ keys es ↔ ∃ t, Filed es t k := by
  simp [keys_eq, filed_iff]

theorem ordered_nil : Ordered ([] : List (τ × List κ)) := ⟨List.Pairwise.nil, fun _ h => absurd h not_mem_nil⟩

/-! ### Filing -/

theorem entries_file (t : τ) (k : κ) (es : List (τ × List κ)) : (entries (file t k es)).Perm ((t, k) :: entries es) := by
  induction es with
  | nil => exact List.Perm.refl _
  | cons b es ih =>
    obtain ⟨u, ks⟩ := b
    unfold file
    split_ifs with hlt heq
    · exact List.Perm.refl _
    · simp only [entries, flatMap_cons, map_append, map_singleton, append_assoc, singleton_append, heq]
      exact perm_middle
    · exact (ih.append_left _).trans perm_middle

theorem forall_mem_file (hold : ∀ b ∈ es, P b) (hnew : ∀ ks, ks ≠ [] → P (t, ks)) : ∀ b ∈ file t k es, P b := by
  induction es with
  | nil => exact forall_mem_singleton.mpr (hnew _ (cons_ne_nil _ _))
  | cons b es ih =>
    obtain ⟨hb, hes⟩ := forall_mem_cons.mp hold
    unfold file
    split_ifs with hlt heq
    · exact forall_mem_cons.mpr ⟨hnew _ (cons_ne_nil _ _), hold⟩
    · exact forall_mem_cons.mpr ⟨heq ▸ hnew _ (by simp), hes⟩
    · exact forall_mem_cons.mpr ⟨hb, ih hes⟩

theorem pairwise_file (h : es.Pairwise fun a b => a.1 < b.1) (t : τ) (k : κ) :
    (file t k es).Pairwise fun a b => a.1 < b.1 := by
  induction es with
  | nil => exact pairwise_singleton _ _
  | cons b es ih =>
    obtain ⟨hfirst, hrest⟩ := pairwise_cons.mp h
    unfold file
    split_ifs with hlt heq
    · exact pairwise_cons.mpr ⟨forall_mem_cons.mpr ⟨hlt, fun c hc => hlt.trans (hfirst c hc)⟩, h⟩
    · exact pairwise_cons.mpr ⟨hfirst, hrest⟩
    · have hafter : b.1 < t := lt_of_le_of_ne (not_lt.mp hlt) (Ne.symm heq)
      exact pairwise_cons.mpr ⟨forall_mem_file hfirst fun _ _ => hafter, ih hrest⟩

theorem Ordered.file (h : Ordered es) (t : τ) (k : κ) : Ordered (file t k es) :=
  ⟨pairwise_file h.sorted t k, forall_mem_file h.nonempty fun _ hks => hks⟩

/-! ### Forgetting -/

section

variable [DecidableEq κ]

theorem entries_forget (h : es.Pairwise fun a b => a.1 < b.1) (t : τ) (k : κ) :
    (entries (forget t k es)).Perm ((entries es).erase (t, k)) := by
  induction es with
  | nil => exact List.Perm.refl _
  | cons b es ih =>
    obtain ⟨u, ks⟩ := b
    obtain ⟨hfirst, hrest⟩ := pairwise_cons.mp h
    have hcons : entries ((u, ks) :: es) = ks.map (u, ·) ++ entries es := rfl
    rw [hcons]
    unfold forget
    by_cases hu : u = t
    · -- No later bucket has this time.
      subst hu
      have hnot : (u, k) ∉ entries es := by
        rw [← filed_iff]
        rintro ⟨c, hc, hcu, -⟩
        exact (hfirst c hc).ne hcu.symm
      have herase : (ks.map (u, ·) ++ entries es).erase (u, k) = (ks.erase k).map (u, ·) ++ entries es := by
        rw [map_erase (Prod.mk_right_injective u), erase_append]
        split_ifs with hk
        · rfl
        · rw [erase_of_not_mem hnot, erase_of_not_mem hk]
      have hperm := ((swapRemove_perm (k == ·) ks).map (u, ·)).append_right (entries es)
      rw [← erase_eq_eraseP] at hperm
      rw [if_pos rfl, herase]
      split_ifs with hempty
      · rwa [List.isEmpty_iff.mp hempty] at hperm
      · exact hperm
    · rw [if_neg hu, erase_append_right _ (by simp [hu])]
      exact (ih hrest).append_left _

theorem filed_forget (hsort : es.Pairwise fun a b => a.1 < b.1) (hnodup : (keys es).Nodup)
    (t : τ) (k : κ) (u : τ) (j : κ) : Filed (forget t k es) u j ↔ Filed es u j ∧ ¬ (u = t ∧ j = k) := by
  rw [keys_eq] at hnodup
  rw [filed_iff, (entries_forget hsort t k).mem_iff, hnodup.of_map.mem_erase_iff, filed_iff, and_comm, ne_eq,
    Prod.mk.injEq]

theorem nodup_keys_forget (hsort : es.Pairwise fun a b => a.1 < b.1) (hnodup : (keys es).Nodup) (t : τ) (k : κ) :
    (keys (forget t k es)).Nodup := by
  rw [keys_eq] at hnodup ⊢
  exact ((entries_forget hsort t k).map _).nodup_iff.mpr (hnodup.sublist (erase_sublist.map _))

theorem forall_mem_forget (hold : ∀ b ∈ es, P b) (hnew : ∀ b ks, P b → ks ≠ [] → P (b.1, ks)) :
    ∀ b ∈ forget t k es, P b := by
  induction es with
  | nil => exact hold
  | cons b es ih =>
    obtain ⟨hb, hes⟩ := forall_mem_cons.mp hold
    unfold forget
    split_ifs with hu hempty
    · exact hes
    · exact forall_mem_cons.mpr ⟨hnew b _ hb fun hnil => hempty (List.isEmpty_iff.mpr hnil), hes⟩
    · exact forall_mem_cons.mpr ⟨hb, ih hes⟩

theorem pairwise_forget (h : es.Pairwise fun a b => a.1 < b.1) (t : τ) (k : κ) :
    (forget t k es).Pairwise fun a b => a.1 < b.1 := by
  induction es with
  | nil => exact h
  | cons b es ih =>
    obtain ⟨hfirst, hrest⟩ := pairwise_cons.mp h
    unfold forget
    split_ifs with hu hempty
    · exact hrest
    · exact pairwise_cons.mpr ⟨hfirst, hrest⟩
    · exact pairwise_cons.mpr ⟨forall_mem_forget hfirst fun _ _ hlt _ => hlt, ih hrest⟩

theorem Ordered.forget (h : Ordered es) (t : τ) (k : κ) : Ordered (forget t k es) :=
  ⟨pairwise_forget h.sorted t k, forall_mem_forget h.nonempty fun _ _ _ hks => hks⟩

end

/-! ### What is due -/

theorem keys_due_append_later (now : τ) (es : List (τ × List κ)) :
    keys (due now es) ++ keys (later now es) = keys es := by
  unfold keys due later
  rw [← flatMap_append, takeWhile_append_dropWhile]

theorem Ordered.later (h : Ordered es) (now : τ) : Ordered (later now es) :=
  ⟨h.sorted.sublist (dropWhile_sublist _), fun b hb => h.nonempty b ((dropWhile_sublist _).mem hb)⟩

theorem mem_due_later (hsort : es.Pairwise fun a b => a.1 < b.1) (now : τ) :
    (∀ b, b ∈ due now es ↔ b ∈ es ∧ b.1 ≤ now) ∧ ∀ b, b ∈ later now es ↔ b ∈ es ∧ now < b.1 := by
  induction es with
  | nil => simp [due, later]
  | cons c es ih =>
    obtain ⟨hfirst, hrest⟩ := pairwise_cons.mp hsort
    have ih := ih hrest
    unfold due later at ih ⊢
    rw [takeWhile_cons, dropWhile_cons]
    by_cases hc : c.1 ≤ now
    · simp only [hc, decide_true, if_true, mem_cons, ih]
      grind
    · have hlate : ∀ b ∈ es, now < b.1 := fun b hb => (not_le.mp hc).trans (hfirst b hb)
      simp only [hc, decide_false, Bool.false_eq_true, if_false, mem_cons]
      grind

theorem filed_due (hsort : es.Pairwise fun a b => a.1 < b.1) (now t : τ) (k : κ) :
    Filed (due now es) t k ↔ Filed es t k ∧ t ≤ now := by
  simp only [Filed, (mem_due_later hsort now).1]
  grind

theorem filed_later (hsort : es.Pairwise fun a b => a.1 < b.1) (now t : τ) (k : κ) :
    Filed (later now es) t k ↔ Filed es t k ∧ now < t := by
  simp only [Filed, (mem_due_later hsort now).2]
  grind

theorem head_le (hsort : es.Pairwise fun a b => a.1 < b.1)
    (h : Filed es t k) : ∃ first, es.head?.map Prod.fst = some first ∧ first ≤ t := by
  obtain ⟨c, hc, rfl, -⟩ := h
  rcases es with _ | ⟨b, es⟩
  · exact absurd hc not_mem_nil
  refine ⟨b.1, rfl, ?_⟩
  cases mem_cons.mp hc with
  | inl hc => exact hc ▸ le_rfl
  | inr hc => exact ((pairwise_cons.mp hsort).1 c hc).le

/-! ### Filing many keys -/

def fileAll (filings : List (τ × κ)) (es : List (τ × List κ)) : List (τ × List κ) :=
  filings.foldl (fun es e => file e.1 e.2 es) es

variable (filings : List (τ × κ))

theorem entries_fileAll (es : List (τ × List κ)) : (entries (fileAll filings es)).Perm (filings ++ entries es) := by
  induction filings generalizing es with
  | nil => exact List.Perm.refl _
  | cons e filings ih => exact ((ih (file e.1 e.2 es)).trans ((entries_file e.1 e.2 es).append_left _)).trans perm_middle

theorem Ordered.fileAll (h : Ordered es) (filings : List (τ × κ)) : Ordered (fileAll filings es) := by
  induction filings generalizing es with
  | nil => exact h
  | cons e filings ih => exact ih (h.file e.1 e.2)

end Boreas.Buckets
