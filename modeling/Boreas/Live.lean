import Mathlib

/-! # A connection shared between callers

live.rs, over any type of connections and of errors: a cell that is down, being opened by one attempt, or up.  An
attempt's future yields (`yields`), then its task stores and reports the outcome (`settle`); other tasks run in
between.  `Sound` says that only the attempt named by the cell is pending. -/

namespace Boreas

open Function

inductive LiveState (γ : Type*)
  | down
  | opening (attempt : ℕ)
  | up (connection : γ)

/-- One dial: its future runs, has yielded, or its outcome was stored and reported. An unwound dial drops its
report. -/
inductive Attempt (ε γ : Type*)
  | running
  | yielded (outcome : Except ε γ)
  | settled (outcome : Except ε γ)
  | unwound

structure Live (ε γ : Type*) where
  state : LiveState γ
  attempts : ℕ → Attempt ε γ
  next : ℕ

namespace Live

variable {ε γ : Type*}

def new : Live ε γ := ⟨.down, fun _ => .unwound, 0⟩

inductive Got (γ : Type*)
  | ready (connection : γ)
  | waiting (attempt : ℕ)

variable (l : Live ε γ)

def begin : Live ε γ × Got γ :=
  (⟨.opening l.next, update l.attempts l.next .running, l.next + 1⟩, .waiting l.next)

def get (alive : γ → Bool) : Live ε γ × Got γ :=
  match l.state with
  | .up connection => if alive connection then (l, .ready connection) else l.begin
  | .opening attempt => (l, .waiting attempt)
  | .down => l.begin

def yields (attempt : ℕ) (outcome : Except ε γ) : Live ε γ :=
  match l.attempts attempt with
  | .running => { l with attempts := update l.attempts attempt (.yielded outcome) }
  | _ => l

def settle (attempt : ℕ) : Live ε γ :=
  match l.attempts attempt with
  | .yielded (.ok connection) =>
    { l with state := .up connection, attempts := update l.attempts attempt (.settled (.ok connection)) }
  | .yielded (.error e) =>
    { l with state := .down, attempts := update l.attempts attempt (.settled (.error e)) }
  | _ => l

def unwind (attempt : ℕ) : Live ε γ :=
  match l.attempts attempt with
  | .running => { l with attempts := update l.attempts attempt .unwound }
  | _ => l

def received (aborted : ε) (attempt : ℕ) : Option (Except ε γ) :=
  match l.attempts attempt with
  | .settled outcome => some outcome
  | .unwound => some (.error aborted)
  | .running => none
  | .yielded _ => none

/-! ### One attempt at a time -/

def comesTo (attempt : ℕ) (connection : γ) : Prop :=
  l.attempts attempt = .yielded (.ok connection) ∨ l.attempts attempt = .settled (.ok connection)

structure Sound (l : Live ε γ) : Prop where
  running : ∀ a, l.attempts a = .running → l.state = .opening a
  yielded : ∀ a outcome, l.attempts a = .yielded outcome → l.state = .opening a
  lt_next : ∀ a, l.state = .opening a → a < l.next
  unsettled : ∀ a outcome, l.state = .opening a → l.attempts a ≠ .settled outcome

theorem sound_new : (new : Live ε γ).Sound :=
  ⟨nofun, nofun, nofun, nofun⟩

theorem Sound.begin {l : Live ε γ} (h : l.Sound) (hidle : ∀ a, l.state ≠ .opening a) : l.begin.1.Sound := by
  refine ⟨(forall_update_iff l.attempts fun a x => x = .running → LiveState.opening l.next = .opening a).mpr
      ⟨fun _ => rfl, fun a _ ha => absurd (h.running a ha) (hidle a)⟩,
    (forall_update_iff l.attempts fun a x => ∀ r, x = .yielded r → LiveState.opening l.next = .opening a).mpr
      ⟨nofun, fun a _ r ha => absurd (h.yielded a r ha) (hidle a)⟩, fun a ha => ?_, fun a outcome ha => ?_⟩
  · cases ha
    exact Nat.lt_succ_self _
  · cases ha
    simp [Live.begin]

theorem Sound.yields {l : Live ε γ} (h : l.Sound) (att : ℕ) (outcome : Except ε γ) :
    (l.yields att outcome).Sound := by
  unfold Live.yields
  cases ha : l.attempts att with
  | running =>
    have hstate := h.running att ha
    exact ⟨(forall_update_iff l.attempts fun a x => x = .running → l.state = .opening a).mpr
        ⟨nofun, fun a _ => h.running a⟩,
      (forall_update_iff l.attempts fun a x => ∀ r, x = .yielded r → l.state = .opening a).mpr
        ⟨fun _ _ => hstate, fun a _ => h.yielded a⟩, h.lt_next,
      (forall_update_iff l.attempts fun a x => ∀ r, l.state = .opening a → x ≠ .settled r).mpr
        ⟨fun _ _ => nofun, fun a _ => h.unsettled a⟩⟩
  | _ => exact h

theorem Sound.ends {l : Live ε γ} (h : l.Sound) (hstate : l.state = .opening attempt)
    {state : LiveState γ} (hdone : done ≠ .running ∧ ∀ r, done ≠ .yielded r)
    (hnext : (∀ a, state ≠ .opening a) ∨ state = .opening attempt ∧ ∀ r, done ≠ .settled r) :
    ({ l with state := state, attempts := update l.attempts attempt done } : Live ε γ).Sound := by
  have hother : ∀ a, a ≠ attempt → l.state ≠ .opening a := by
    intro a hne ha
    cases hstate.symm.trans ha
    exact hne rfl
  refine ⟨(forall_update_iff l.attempts fun a x => x = .running → state = .opening a).mpr
      ⟨fun hrun => absurd hrun hdone.1, fun a hne hrun => absurd (h.running a hrun) (hother a hne)⟩,
    (forall_update_iff l.attempts fun a x => ∀ r, x = .yielded r → state = .opening a).mpr
      ⟨fun r hyield => absurd hyield (hdone.2 r), fun a hne r hyield => absurd (h.yielded a r hyield) (hother a hne)⟩,
    fun a hopen => ?_, fun a r hopen => ?_⟩
  · rcases hnext with hnext | ⟨hsame, -⟩
    · exact absurd hopen (hnext a)
    · exact h.lt_next a (by rw [hstate, ← hsame]; exact hopen)
  · rcases hnext with hnext | ⟨hsame, hunsettled⟩
    · exact absurd hopen (hnext a)
    dsimp only at hopen ⊢
    rw [hsame] at hopen
    cases hopen
    rw [update_self]
    exact hunsettled r

theorem Sound.settle {l : Live ε γ} (h : l.Sound) (att : ℕ) : (l.settle att).Sound := by
  unfold Live.settle
  cases ha : l.attempts att with
  | yielded outcome =>
    have hstate := h.yielded att outcome ha
    cases outcome with
    | ok conn | error e =>
      exact h.ends hstate ⟨nofun, nofun⟩ (.inl fun _ hstate' => by cases hstate')
  | _ => exact h

theorem Sound.unwind {l : Live ε γ} (h : l.Sound) (att : ℕ) : (l.unwind att).Sound := by
  unfold Live.unwind
  cases ha : l.attempts att with
  | running =>
    have hstate := h.running att ha
    exact h.ends hstate ⟨nofun, nofun⟩ (.inr ⟨hstate, nofun⟩)
  | _ => exact h

end Live

end Boreas
