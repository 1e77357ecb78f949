import Boreas.Clock

/-! # The timer wheel of the flow table

`TimerWheel` files keys under the whole second at which their flow is next looked at: a ring of `wheelBuckets` buckets
for the seconds from `drained` on, and an `overflow` list.  In a wheel that is `Ring` and `Far` no filed key is later
than `nextDue` (`nextDue_le`).  `takeDue` sorts the overflow list against the ring as it was before the call, so `Far`
is kept only under `KeepsFar`. -/

namespace Boreas

open List

def wheelBuckets : ℕ := 512

abbrev Buckets (κ : Type*) := Fin wheelBuckets → List (ℕ × κ)

structure TimerWheel (κ : Type*) where
  buckets : Buckets κ
  overflow : List (ℕ × κ)
  epoch : Instant
  drained : ℕ

def slot (second : ℕ) : Fin wheelBuckets := ⟨second % wheelBuckets, Nat.mod_lt _ (by decide)⟩

theorem slot_eq_iff : slot s = slot t ↔ s % wheelBuckets = t % wheelBuckets := by
  simp [slot]

namespace TimerWheel

variable {κ : Type*}

def new (epoch : Instant) : TimerWheel κ := ⟨fun _ => [], [], epoch, 0⟩

variable (w : TimerWheel κ)

variable (deadline : Instant)

def second : ℕ :=
  min (deadline.saturatingDurationSince w.epoch / nanosPerSec) (2 ^ 64 - 2)

def pushBucket (second : ℕ) (entry : κ) : TimerWheel κ :=
  { w with buckets := Function.update w.buckets (slot second) (w.buckets (slot second) ++ [(second, entry)]) }

def pushOverflow (second : ℕ) (entry : κ) : TimerWheel κ :=
  { w with overflow := w.overflow ++ [(second, entry)] }

def insert (entry : κ) : TimerWheel κ :=
  let second := max (w.second deadline) w.drained
  if second ≥ w.drained + wheelBuckets then w.pushOverflow second entry
  else w.pushBucket second entry

variable (horizon : ℕ)

section

variable (acc : TimerWheel κ × List κ)

def sortOne (e : ℕ × κ) : TimerWheel κ × List κ :=
  if e.1 ≤ horizon then (acc.1, acc.2 ++ [e.2])
  else if e.1 < acc.1.drained + wheelBuckets then (acc.1.pushBucket e.1 e.2, acc.2)
  else (acc.1.pushOverflow e.1 e.2, acc.2)

def sortOverflow : TimerWheel κ × List κ :=
  w.overflow.foldl (sortOne horizon) ({ w with overflow := [] }, [])

def drainOne (e : ℕ × κ) : TimerWheel κ × List κ :=
  if e.1 ≤ horizon then (acc.1, acc.2 ++ [e.2]) else (acc.1.pushBucket e.1 e.2, acc.2)

def drainBucket : TimerWheel κ × List κ :=
  let bucket := slot acc.1.drained
  let out := (acc.1.buckets bucket).foldl (drainOne horizon)
    ({ acc.1 with buckets := Function.update acc.1.buckets bucket [] }, acc.2)
  ({ out.1 with drained := out.1.drained + 1 }, out.2)

end

def drainLoop (horizon : ℕ) : ℕ → TimerWheel κ × List κ → TimerWheel κ × List κ
  | 0, acc => acc
  | n + 1, acc => drainLoop horizon n (drainBucket horizon acc)

/-- Surface the entries whose second has come by `now`.  The loop runs while `drained ≤ horizon` and
each round adds one to `drained`. -/
def takeDue (now : Instant) : TimerWheel κ × List κ :=
  let horizon := w.second now
  drainLoop horizon (horizon + 1 - w.drained) (w.sortOverflow horizon)

/-- The first second from `drained` on with something in its bucket, or the end of the ring when only
the overflow list holds something. -/
def nextDue : Option ℕ :=
  let horizon := w.drained + wheelBuckets
  ((List.range' w.drained wheelBuckets).find? (fun s => !(w.buckets (slot s)).isEmpty)).or
    (if w.overflow.isEmpty then none else some horizon)

/-! ### Where an entry is filed -/

def Filed (e : ℕ × κ) : Prop := e ∈ w.buckets (slot e.1) ∨ e ∈ w.overflow

/-- The buckets hold entries of the seconds from `drained` up to a full turn. -/
def Ring : Prop :=
  ∀ i, ∀ e ∈ w.buckets i, slot e.1 = i ∧ w.drained ≤ e.1 ∧ e.1 < w.drained + wheelBuckets

def Far : Prop := ∀ e ∈ w.overflow, w.drained + wheelBuckets ≤ e.1

variable (w : TimerWheel κ)

variable (s : ℕ) (k : κ)

theorem mem_pushBucket (i : Fin wheelBuckets) (e : ℕ × κ) :
    e ∈ (w.pushBucket s k).buckets i ↔ e ∈ w.buckets i ∨ (i = slot s ∧ e = (s, k)) := by
  by_cases h : i = slot s
  · subst h; simp [pushBucket]
  · simp [pushBucket, h]

@[simp] theorem pushBucket_overflow : (w.pushBucket s k).overflow = w.overflow := rfl

variable (e : ℕ × κ)

theorem filed_pushBucket : (w.pushBucket s k).Filed e ↔ w.Filed e ∨ e = (s, k) := by
  unfold Filed
  rw [mem_pushBucket, pushBucket_overflow]
  constructor
  · rintro ((h | ⟨-, h⟩) | h) <;> simp [h]
  · rintro ((h | h) | rfl) <;> simp [*]

theorem filed_pushOverflow : (w.pushOverflow s k).Filed e ↔ w.Filed e ∨ e = (s, k) := by
  unfold Filed pushOverflow
  rw [mem_append, mem_singleton, or_assoc]

theorem ring_pushBucket {w : TimerWheel κ} (h : w.Ring) {s : ℕ} (k : κ) (hlo : w.drained ≤ s)
    (hhi : s < w.drained + wheelBuckets) : (w.pushBucket s k).Ring := by
  intro i e he
  rcases (mem_pushBucket w s k i e).mp he with he | ⟨rfl, rfl⟩
  · exact h i e he
  · exact ⟨rfl, hlo, hhi⟩

/-! ### `insert` -/

/-- What `insert` keeps, and where the new entry is. -/
structure Inserted (w w' : TimerWheel κ) (deadline : Instant) (entry : κ) : Prop where
  epoch : w'.epoch = w.epoch
  drained : w'.drained = w.drained
  filed : ∀ e, w'.Filed e ↔ w.Filed e ∨ e = (max (w.second deadline) w.drained, entry)
  ring : w.Ring → w'.Ring
  far : w.Far → w'.Far

theorem insert_spec (entry : κ) : Inserted w (w.insert deadline entry) deadline entry := by
  unfold insert
  dsimp only
  split_ifs with h
  · refine ⟨rfl, rfl, filed_pushOverflow _ _ _, id, fun hfar e he => ?_⟩
    rcases mem_append.mp he with he | he
    · exact hfar e he
    · rw [mem_singleton.mp he]
      exact h
  · refine ⟨rfl, rfl, filed_pushBucket _ _ _, fun hring => ?_, id⟩
    exact ring_pushBucket hring entry (le_max_right _ _) (not_le.mp h)

/-! ### `takeDue` -/

/-- What a pass of `takeDue` has done so far: from `w` and what was surfaced, to `w'` and more surfaced.
Due entries are surfaced and the others stay filed. -/
structure Passed (horizon : ℕ) (due : ℕ × κ → Prop) (p p' : TimerWheel κ × List κ) : Prop where
  epoch : p'.1.epoch = p.1.epoch
  surfaced : ∀ k ∈ p.2, k ∈ p'.2
  filed : ∀ e, p.1.Filed e ∨ due e → p'.1.Filed e ∨ e.2 ∈ p'.2 ∧ e.1 ≤ horizon

variable {p : TimerWheel κ × List κ} {horizon : ℕ}

theorem sortOne_ring (hring : p.1.Ring) (hdr : p.1.drained ≤ horizon + 1) : (sortOne horizon p e).1.Ring := by
  unfold sortOne
  split_ifs with h1 h2
  · exact hring
  · exact ring_pushBucket hring e.2 (by omega) h2
  · exact hring

theorem sortOne_passed (horizon : ℕ) (p : TimerWheel κ × List κ) (e : ℕ × κ) :
    Passed horizon (· = e) p (sortOne horizon p e) := by
  unfold sortOne
  split_ifs with h1 h2
  · refine ⟨rfl, fun k hk => mem_append_left _ hk, ?_⟩
    rintro e' (h | rfl)
    · exact .inl h
    · exact .inr ⟨mem_append_right _ (mem_singleton.mpr rfl), h1⟩
  · refine ⟨rfl, fun _ hk => hk, fun e' h => .inl ?_⟩
    exact (filed_pushBucket _ _ _ _).mpr h
  · refine ⟨rfl, fun _ hk => hk, fun e' h => .inl ?_⟩
    exact (filed_pushOverflow _ _ _ _).mpr h

variable {d₁ d₂ : ℕ × κ → Prop}

theorem Passed.trans (h₁ : Passed horizon d₁ p q) (h₂ : Passed horizon d₂ q r) :
    Passed horizon (fun e => d₁ e ∨ d₂ e) p r := by
  refine ⟨h₂.epoch.trans h₁.epoch, fun k hk => h₂.surfaced k (h₁.surfaced k hk), ?_⟩
  intro e he
  by_cases hd : d₂ e
  · exact h₂.filed e (.inr hd)
  · have h : p.1.Filed e ∨ d₁ e := by tauto
    rcases h₁.filed e h with h | ⟨h, hle⟩
    · exact h₂.filed e (.inl h)
    · exact .inr ⟨h₂.surfaced _ h, hle⟩

theorem Passed.mono (h : Passed horizon d₁ p q) (hd : ∀ e, d₂ e → d₁ e) : Passed horizon d₂ p q :=
  ⟨h.epoch, h.surfaced, fun e he => h.filed e (he.imp_right (hd e))⟩

theorem sortFold_spec (horizon : ℕ) : ∀ (l : List (ℕ × κ)) (p : TimerWheel κ × List κ),
    Passed horizon (· ∈ l) p (l.foldl (sortOne horizon) p) ∧ (l.foldl (sortOne horizon) p).1.drained = p.1.drained ∧
    (p.1.Ring → p.1.drained ≤ horizon + 1 → (l.foldl (sortOne horizon) p).1.Ring) ∧
    (∀ e ∈ (l.foldl (sortOne horizon) p).1.overflow, e ∈ p.1.overflow ∨
      e ∈ l ∧ horizon < e.1 ∧ p.1.drained + wheelBuckets ≤ e.1) := by
  intro l
  induction l with
  | nil =>
    intro p
    refine ⟨⟨rfl, fun _ h => h, fun e h => .inl ?_⟩, rfl, fun h _ => h, fun e h => .inl h⟩
    exact h.resolve_right not_mem_nil
  | cons a l ih =>
    intro p
    have hdr : (sortOne horizon p a).1.drained = p.1.drained := by
      unfold sortOne; split_ifs <;> rfl
    obtain ⟨ih1, ih2, ih3, ih4⟩ := ih (sortOne horizon p a)
    refine ⟨((sortOne_passed horizon p a).trans ih1).mono (fun e he => mem_cons.mp he),
      ih2.trans hdr, fun hring hle => ?_, fun e he => ?_⟩
    · exact ih3 (sortOne_ring a hring hle) (hdr ▸ hle)
    · rcases ih4 e he with he | ⟨he, hlt, hfar⟩
      · unfold sortOne at he
        split_ifs at he with h1 h2
        · exact .inl he
        · exact .inl he
        · rcases mem_append.mp he with he | he
          · exact .inl he
          · rw [mem_singleton.mp he]
            exact .inr ⟨mem_cons_self, not_le.mp h1, not_lt.mp h2⟩
      · exact .inr ⟨mem_cons_of_mem _ he, hlt, hdr ▸ hfar⟩

variable {w : TimerWheel κ}

theorem Ring.second_eq_drained (h : w.Ring) {e : ℕ × κ}
    (he : e ∈ w.buckets (slot w.drained)) : e.1 = w.drained := by
  obtain ⟨hs, hlo, hhi⟩ := h _ e he
  have hmod := (slot_eq_iff).mp hs
  unfold wheelBuckets at *
  omega

theorem drainFold_due : ∀ (l : List (ℕ × κ)) (p : TimerWheel κ × List κ),
    (∀ e ∈ l, e.1 ≤ horizon) → l.foldl (drainOne horizon) p = (p.1, p.2 ++ l.map Prod.snd)
  | [], p, _ => by simp
  | e :: l, p, h => by
    have he : e.1 ≤ horizon := h e mem_cons_self
    rw [foldl_cons, drainFold_due l _ (fun e' he' => h e' (mem_cons_of_mem _ he'))]
    simp [drainOne, he]

theorem drainBucket_eq (hring : p.1.Ring) (hle : p.1.drained ≤ horizon) : drainBucket horizon p = ({ p.1 with
          buckets := Function.update p.1.buckets (slot p.1.drained) []
          drained := p.1.drained + 1 },
        p.2 ++ (p.1.buckets (slot p.1.drained)).map Prod.snd) := by
  unfold drainBucket
  dsimp only
  rw [drainFold_due]
  intro e he
  rw [hring.second_eq_drained he]
  exact hle

theorem drainBucket_ring (hring : p.1.Ring) (hle : p.1.drained ≤ horizon) : (drainBucket horizon p).1.Ring := by
  rw [drainBucket_eq hring hle]
  intro i e he
  by_cases hi : i = slot p.1.drained
  · subst hi
    simp at he
  · have he' : e ∈ p.1.buckets i := by simpa [hi] using he
    obtain ⟨hs, hlo, hhi⟩ := hring i e he'
    have hne : e.1 ≠ p.1.drained := fun h => hi (by rw [← hs, h])
    refine ⟨hs, ?_, ?_⟩ <;> dsimp only <;> omega

theorem drainBucket_passed (hring : p.1.Ring)
    (hle : p.1.drained ≤ horizon) : Passed horizon (fun _ => False) p (drainBucket horizon p) := by
  rw [drainBucket_eq hring hle]
  refine ⟨rfl, fun k hk => mem_append_left _ hk, ?_⟩
  rintro e ((he | he) | h)
  · by_cases hi : slot e.1 = slot p.1.drained
    · refine .inr ⟨mem_append_right _ (mem_map.mpr ⟨e, hi ▸ he, rfl⟩), ?_⟩
      rw [hring.second_eq_drained (hi ▸ he)]
      exact hle
    · refine .inl (.inl ?_)
      simpa [hi] using he
  · exact .inl (.inr he)
  · exact h.elim

theorem drainLoop_spec (horizon : ℕ) : ∀ (n : ℕ) (p : TimerWheel κ × List κ), p.1.Ring →
    p.1.drained + n ≤ horizon + 1 →
    (drainLoop horizon n p).1.Ring ∧ Passed horizon (fun _ => False) p (drainLoop horizon n p) ∧
    (drainLoop horizon n p).1.drained = p.1.drained + n ∧ (drainLoop horizon n p).1.overflow = p.1.overflow
  | 0, p, hring, _ =>
    ⟨hring, ⟨rfl, fun _ h => h, fun e h => .inl (h.resolve_right id)⟩, rfl, rfl⟩
  | n + 1, p, hring, hle => by
    have hd : p.1.drained ≤ horizon := by omega
    have heq := drainBucket_eq hring hd
    have hdr : (drainBucket horizon p).1.drained = p.1.drained + 1 := by rw [heq]
    obtain ⟨h1, h2, h3, h4⟩ := drainLoop_spec horizon n (drainBucket horizon p)
      (drainBucket_ring hring hd) (by omega)
    refine ⟨h1, ((drainBucket_passed hring hd).trans h2).mono (fun _ h => h.elim), ?_, ?_⟩
    · rw [drainLoop, h3, hdr]; omega
    · rw [drainLoop, h4, heq]

/-- What one `takeDue` does to a ring whose `drained` is not ahead of the clock. -/
structure Taken (w : TimerWheel κ) (now : Instant) (p : TimerWheel κ × List κ) : Prop where
  epoch : p.1.epoch = w.epoch
  drained : p.1.drained = w.second now + 1
  ring : p.1.Ring
  /-- Every filed entry is still filed, or its key is surfaced. -/
  filed : ∀ e, w.Filed e → p.1.Filed e ∨ e.2 ∈ p.2
  /-- What stays in the overflow list was past the ring of *before* the call. -/
  overflow : ∀ e ∈ p.1.overflow,
    e ∈ w.overflow ∧ w.second now < e.1 ∧ w.drained + wheelBuckets ≤ e.1

theorem takeDue_spec (hring : w.Ring)
    (hdr : w.drained ≤ w.second now + 1) : Taken w now (w.takeDue now) := by
  have hsort := sortFold_spec (w.second now) w.overflow ({ w with overflow := [] }, [])
  obtain ⟨hs1, hs2, hs3, hs4⟩ := hsort
  have hring' := hs3 hring hdr
  obtain ⟨h1, h2, h3, h4⟩ := drainLoop_spec (w.second now) (w.second now + 1 - w.drained)
    (w.sortOverflow (w.second now)) hring' (by
      have : (w.sortOverflow (w.second now)).1.drained = w.drained := hs2
      omega)
  have hpass := hs1.trans h2
  refine ⟨hpass.epoch, ?_, h1, fun e he => ?_, fun e he => ?_⟩
  · have hd : (w.sortOverflow (w.second now)).1.drained = w.drained := hs2
    unfold takeDue
    rw [h3]
    omega
  · have he' : TimerWheel.Filed { w with overflow := [] } e ∨ e ∈ w.overflow ∨ False := by
      rcases he with he | he
      · exact .inl (.inl he)
      · exact .inr (.inl he)
    exact (hpass.filed e he').imp_right And.left
  · have he' : e ∈ (w.sortOverflow (w.second now)).1.overflow := h4 ▸ he
    rcases hs4 e he' with h | h
    · simp at h
    · exact h

theorem drainLoop_empty (horizon : ℕ) (overflow : List (ℕ × κ)) (epoch : Instant) (keys : List κ) :
    ∀ n drained : ℕ, drainLoop horizon n (⟨fun _ => [], overflow, epoch, drained⟩, keys) =
      (⟨fun _ => [], overflow, epoch, drained + n⟩, keys)
  | 0, _ => rfl
  | n + 1, drained => by
    have hone : drainBucket horizon (⟨fun _ => [], overflow, epoch, drained⟩, keys) =
        (⟨fun _ => [], overflow, epoch, drained + 1⟩, keys) := by
      simp [drainBucket]
    rw [drainLoop, hone, drainLoop_empty horizon overflow epoch keys n (drained + 1), Nat.add_right_comm]
    rfl

/-- The overflow list stays past the ring over a `takeDue` at `now`: no entry that is not due and was
past the ring before the call is inside the ring after it. -/
def KeepsFar (w : TimerWheel κ) (now : Instant) : Prop :=
  ∀ e ∈ w.overflow, w.second now < e.1 → w.drained + wheelBuckets ≤ e.1 →
    w.second now + 1 + wheelBuckets ≤ e.1

instance (w : TimerWheel κ) (now : Instant) : Decidable (w.KeepsFar now) := by
  unfold KeepsFar; infer_instance

theorem Taken.far (h : Taken w now p) (hk : w.KeepsFar now) : p.1.Far := by
  intro e he
  obtain ⟨hmem, hlt, hfar⟩ := h.overflow e he
  rw [h.drained]
  exact hk e hmem hlt hfar

/-! ### `nextDue` -/

theorem nextDue_le (hring : w.Ring) (hfar : w.Far) {e : ℕ × κ} (he : w.Filed e) :
    ∃ s, w.nextDue = some s ∧ s ≤ e.1 := by
  unfold nextDue
  cases hf : (List.range' w.drained wheelBuckets).find? (fun s => !(w.buckets (slot s)).isEmpty) with
  | none =>
    rw [find?_eq_none] at hf
    rcases he with he | he
    · obtain ⟨-, hlo, hhi⟩ := hring _ e he
      have h := hf e.1 (by rw [mem_range']; exact ⟨e.1 - w.drained, by omega, by omega⟩)
      simp only [Bool.not_eq_true', Bool.not_eq_false, List.isEmpty_iff] at h
      rw [h] at he
      simp at he
    · refine ⟨w.drained + wheelBuckets, ?_, hfar e he⟩
      have hne : w.overflow.isEmpty = false := by
        cases ho : w.overflow with
        | nil => rw [ho] at he; simp at he
        | cons a l => rfl
      simp [hne]
  | some s =>
    refine ⟨s, rfl, ?_⟩
    obtain ⟨-, as, bs, hsplit, has⟩ := find?_eq_some_iff_append.mp hf
    have hs : s ∈ List.range' w.drained wheelBuckets := by rw [hsplit]; simp
    have hs' := mem_range'_1.mp hs
    rcases he with he | he
    · obtain ⟨-, hlo, hhi⟩ := hring _ e he
      have hmem : e.1 ∈ List.range' w.drained wheelBuckets := mem_range'_1.mpr ⟨hlo, hhi⟩
      rw [hsplit] at hmem
      have hsort : (List.range' w.drained wheelBuckets).Pairwise (· < ·) := pairwise_lt_range'
      rw [hsplit, pairwise_append, pairwise_cons] at hsort
      rcases mem_append.mp hmem with h | h
      · have hempty := has e.1 h
        simp only [Bool.not_not, List.isEmpty_iff] at hempty
        rw [hempty] at he
        simp at he
      · rcases mem_cons.mp h with h | h
        · omega
        · have := hsort.2.1.1 e.1 h
          omega
    · have := hfar e he
      omega

end TimerWheel
end Boreas
