import Boreas.Live
import Boreas.Runs
import Boreas.Table

/-! # Dials that callers share

Any interleaving of the callers of `Live::get` (live.rs) with the attempts they start.  An attempt that unwinds writes
neither the cell, which names it for good, nor its report: `unwedged_run` is for runs without one.  A VLESS
association has a cell for each destination, and at its limit forgets those whose stream has ended; a cell whose dial
failed stays (`bounded_iff`). -/

namespace Boreas

open Function Runs

namespace Live

inductive Event (ε γ : Type)
  | get (alive : γ → Bool)
  | yields (attempt : ℕ) (outcome : Except ε γ)
  | settle (attempt : ℕ)
  | unwind (attempt : ℕ)

variable {ε γ : Type} {l : Live ε γ}

def step (l : Live ε γ) : Event ε γ → Live ε γ
  | .get alive => (l.get alive).1
  | .yields attempt outcome => l.yields attempt outcome
  | .settle attempt => l.settle attempt
  | .unwind attempt => l.unwind attempt

def Pending (l : Live ε γ) (attempt : ℕ) : Prop :=
  l.attempts attempt = .running ∨ ∃ outcome, l.attempts attempt = .yielded outcome

/-- What callers rely on: one attempt at a time, each caller is told the outcome of its attempt or an error, and
without a pending attempt the next caller gets a connection that is alive, or a new attempt. -/
structure Unwedged (aborted : ε) (es : List (Event ε γ)) (l : Live ε γ) : Prop where
  one : ∀ a b, l.Pending a → l.Pending b → a = b
  told : ∀ a < l.next, ¬ l.Pending a → ∃ outcome, l.received aborted a = some outcome ∧
    (.yields a outcome ∈ es ∨ outcome = .error aborted)
  again : (∀ a, ¬ l.Pending a) → ∀ alive, (∃ c, (l.get alive).2 = .ready c ∧ alive c = true) ∨
    (l.get alive).2 = .waiting l.next ∧ (l.get alive).1.Pending l.next

/-- Every attempt runs, or has yielded an outcome of the run. -/
structure Told (es : List (Event ε γ)) (l : Live ε γ) : Prop where
  sound : l.Sound
  outcome : ∀ a < l.next, l.attempts a = .running ∨
    ∃ r, .yields a r ∈ es ∧ (l.attempts a = .yielded r ∨ l.attempts a = .settled r)

namespace Told

variable {es : List (Event ε γ)} {e : Event ε γ}

theorem mono (h : Told es l) : Told (es ++ [e]) l :=
  ⟨h.sound, fun a ha => (h.outcome a ha).imp_right fun ⟨r, hr, hat⟩ => ⟨r, List.mem_append_left _ hr, hat⟩⟩

theorem begin (h : Told es l) (hidle : ∀ a, l.state ≠ .opening a) : Told es l.begin.1 := by
  refine ⟨h.sound.begin hidle, fun a ha => ?_⟩
  by_cases hnext : a = l.next
  · simp [Live.begin, hnext]
  · have hlt : a < l.next := by
      simp only [Live.begin] at ha
      omega
    simpa [Live.begin, hnext] using h.outcome a hlt

theorem get (h : Told es l) (alive : γ → Bool) : Told es (l.get alive).1 := by
  unfold Live.get
  split
  · split_ifs
    · exact h
    · exact h.begin (by simp_all)
  · exact h
  · exact h.begin (by simp_all)

theorem yields (h : Told es l) (att : ℕ) (outcome : Except ε γ) :
    Told (es ++ [.yields att outcome]) (l.yields att outcome) := by
  refine ⟨h.sound.yields att outcome, ?_⟩
  have hmono := (h.mono (e := .yields att outcome)).outcome
  unfold Live.yields
  split
  · intro a ha
    by_cases heq : a = att
    · exact .inr ⟨outcome, by simp [heq], .inl (by simp [heq])⟩
    · simpa [heq] using hmono a ha
  · exact hmono

theorem settled (h : Told es l) (hat : l.attempts att = .yielded r) (a : ℕ)
    (ha : a < l.next) : update l.attempts att (.settled r) a = .running ∨ ∃ r', .yields a r' ∈ es ∧
      (update l.attempts att (.settled r) a = .yielded r' ∨
        update l.attempts att (.settled r) a = .settled r') := by
  have hold := h.outcome a ha
  by_cases heq : a = att
  · subst heq
    simp only [hat, update_self, reduceCtorEq, false_or, or_false, Attempt.yielded.injEq] at hold ⊢
    obtain ⟨r', hr', rfl⟩ := hold
    exact ⟨r, hr', rfl⟩
  · simpa [heq] using hold

theorem settle (h : Told es l) (att : ℕ) : Told es (l.settle att) := by
  refine ⟨h.sound.settle att, ?_⟩
  unfold Live.settle
  split
  · next hat => exact h.settled hat
  · next hat => exact h.settled hat
  · exact h.outcome

theorem pending_of_opening (h : Told es l) (ha : l.state = .opening a) : l.Pending a := by
  obtain hrun | ⟨r, -, hyld | hset⟩ := h.outcome a (h.sound.lt_next a ha)
  · exact .inl hrun
  · exact .inr ⟨r, hyld⟩
  · exact absurd hset (h.sound.unsettled a r ha)

theorem unwedged (h : Told es l) (aborted : ε) : Unwedged aborted es l where
  one := by
    have hopen : ∀ a, l.Pending a → l.state = .opening a := by
      rintro a (hrun | ⟨r, hyld⟩)
      · exact h.sound.running a hrun
      · exact h.sound.yielded a r hyld
    intro a b ha hb
    have hsame := (hopen a ha).symm.trans (hopen b hb)
    cases hsame
    rfl
  told := by
    intro a ha hended
    obtain hrun | ⟨r, hr, hyld | hset⟩ := h.outcome a ha
    · exact absurd (.inl hrun) hended
    · exact absurd (.inr ⟨r, hyld⟩) hended
    · exact ⟨r, by simp [received, hset], .inl hr⟩
  again := by
    intro hended alive
    unfold Live.get
    split
    · next c hup =>
      split_ifs with halive
      · exact .inl ⟨c, rfl, halive⟩
      · exact .inr ⟨rfl, .inl (by simp [Live.begin])⟩
    · next a hopen => exact absurd (h.pending_of_opening hopen) (hended a)
    · exact .inr ⟨rfl, .inl (by simp [Live.begin])⟩

end Told

/-- **A shared dial never wedges its connection**, if no attempt unwinds. -/
theorem unwedged_run (aborted : ε) (es : List (Event ε γ)) (hes : ∀ a, .unwind a ∉ es) :
    Unwedged aborted es (run step new es) := by
  have halong : Along step (fun _ e => ∀ a, e ≠ .unwind a) (new : Live ε γ) es :=
    along_of_mem es _ fun e he _ a heq => hes a (heq ▸ he)
  refine Told.unwedged (run_history (I := Told) ⟨sound_new, nofun⟩ ?_ es halong) aborted
  intro es e h he
  cases e with
  | get alive => exact (h.get alive).mono
  | yields att outcome => exact h.yields att outcome
  | settle att => exact (h.settle att).mono
  | unwind att => exact absurd rfl (he att)

/-- A dial that fails, and one that succeeds. -/
theorem unwedged_redial : Unwedged () [.get fun _ => true, .yields 0 (.error ()), .settle 0, .get fun _ => true,
    .yields 1 (.ok 7), .settle 1] (run step (new : Live Unit ℕ) [.get fun _ => true, .yields 0 (.error ()),
      .settle 0, .get fun _ => true, .yields 1 (.ok 7), .settle 1]) :=
  unwedged_run () _ (by simp)

/-- The dial unwinds: no attempt is pending, and yet the next caller waits for the one that is gone. -/
theorem wedged_by_unwinding : let l := run step (new : Live Unit ℕ) [.get fun _ => true, .unwind 0]
    (∀ a, ¬ l.Pending a) ∧ (l.get fun _ => true).2 = .waiting 0 ∧
      (l.get fun _ => true).1.received () 0 = some (.error ()) := by
  refine ⟨fun a => ?_, rfl, rfl⟩
  by_cases ha : a = 0 <;> simp [Live.Pending, step, Live.get, Live.begin, Live.unwind, new, ha]

end Live

/-! ### The destinations of a VLESS association -/

namespace Vless

def maxDestinations : ℕ := 64

/-- The streams of an association: a cell for each destination, and the streams, by number, whose reader has ended. -/
structure Destinations (τ ε : Type) where
  streams : Table τ (Live ε ℕ)
  ended : ℕ → Bool

namespace Destinations

variable {τ ε : Type} [DecidableEq τ]

variable (d : Destinations τ ε)

def isAlive (stream : ℕ) : Bool := !d.ended stream

def peek (live : Live ε ℕ) : Option ℕ :=
  match live.state with
  | .up stream => some stream
  | _ => none

def retained : Table τ (Live ε ℕ) :=
  if maxDestinations ≤ d.streams.size then
    d.streams.retain fun _ live => if (peek live).all d.isAlive then some live else none
  else d.streams

def stream (target : τ) : Destinations τ ε :=
  { d with streams := d.retained.insert target (((d.retained.lookup target).getD .new).get d.isAlive).1 }

inductive Event (τ ε : Type)
  | stream (target : τ)
  | dial (target : τ) (event : Live.Event ε ℕ)
  | ends (stream : ℕ)

def step (d : Destinations τ ε) : Event τ ε → Destinations τ ε
  | .stream target => d.stream target
  | .dial target event =>
    match d.streams.lookup target with
    | some live => { d with streams := d.streams.insert target (live.step event) }
    | none => d
  | .ends stream => { d with ended := update d.ended stream true }

def new : Destinations τ ε := ⟨∅, fun _ => false⟩

/-- The destination has a live stream or a dial in progress. -/
def InUse (live : Live ε ℕ) : Prop :=
  (∃ stream, live.state = .up stream ∧ d.isAlive stream = true) ∨ ∃ a, live.state = .opening a ∧ live.Pending a

/-- The last dial failed, or unwound. -/
def Failed (live : Live ε ℕ) : Prop := live.state = .down ∨ ∃ a, live.state = .opening a ∧ ¬ live.Pending a

omit [DecidableEq τ] in
theorem inUse_iff (live : Live ε ℕ) : d.InUse live ↔ (peek live).all d.isAlive = true ∧ ¬ Failed live := by
  unfold InUse Failed peek
  cases live.state <;> simp

/-- After a call that found the table at its limit, every other destination is in use. -/
def Bounded (target : τ) : Prop := maxDestinations ≤ d.streams.size →
  ∀ other ≠ target, ∀ live, (d.stream target).streams.lookup other = some live → d.InUse live

variable {d} {target : τ}

theorem lookup_stream (hfull : maxDestinations ≤ d.streams.size) (hother : other ≠ target) :
    (d.stream target).streams.lookup other = some live ↔
      d.streams.lookup other = some live ∧ (peek live).all d.isAlive = true := by
  simp only [stream, retained, if_pos hfull, Table.lookup_insert_eq, if_neg hother, Table.lookup_retain,
    Option.bind_eq_some_iff]
  constructor
  · rintro ⟨live', hlive', hkept⟩
    split_ifs at hkept with halive
    cases hkept
    exact ⟨hlive', halive⟩
  · rintro ⟨hlive, halive⟩
    exact ⟨live, hlive, if_pos halive⟩

/-- **Ended destinations are forgotten** exactly when no other destination's last dial has failed. -/
theorem bounded_iff (d : Destinations τ ε) (target : τ) : d.Bounded target ↔ (maxDestinations ≤ d.streams.size →
    ∀ other ≠ target, ∀ live, d.streams.lookup other = some live → ¬ Failed live) := by
  refine imp_congr_right fun hfull => forall₂_congr fun other hother => forall_congr' fun live => ?_
  -- a failed cell is not up, so it is kept
  have hkept : Failed live → (peek live).all d.isAlive = true := by
    rintro (hdown | ⟨a, hopen, -⟩)
    · simp [peek, hdown]
    · simp [peek, hopen]
  rw [lookup_stream hfull hother, inUse_iff]
  tauto

/-! ### Runs without a failed dial -/

/-- The event is no failure of a dial. -/
def Event.Dials : Event τ ε → Prop
  | .dial _ (.yields _ (.error _)) => False
  | .dial _ (.unwind _) => False
  | _ => True

/-- No dial of the cell has failed, or is about to. -/
def Dialled (live : Live ε ℕ) : Prop :=
  live.state ≠ .down ∧ ∃ es, live.Told es ∧ ∀ a e, .yields a (.error e) ∉ es

theorem dialled_get {live : Live ε ℕ} (h : live.Told es) (hes : ∀ a e, .yields a (.error e) ∉ es) (alive : ℕ → Bool) :
    Dialled (live.get alive).1 := by
  refine ⟨?_, es, h.get alive, hes⟩
  unfold Live.get
  split
  · split_ifs
    · simp_all
    · nofun
  · simp_all
  · nofun

omit [DecidableEq τ] in
theorem Dialled.step (h : Dialled live) (he : (Event.dial target event).Dials) : Dialled (live.step event) := by
  obtain ⟨hup, es, htold, hes⟩ := h
  cases event with
  | get alive => exact dialled_get htold hes alive
  | yields a outcome =>
    cases outcome with
    | error e => exact he.elim
    | ok stream =>
      refine ⟨?_, _, htold.yields a (.ok stream), by simpa using hes⟩
      dsimp only [Live.step, Live.yields]
      split <;> exact hup
  | settle a =>
    refine ⟨?_, es, htold.settle a, hes⟩
    dsimp only [Live.step, Live.settle]
    split
    · nofun
    · next e hyielded =>
      obtain hrun | ⟨r, hr, hyld | hset⟩ := htold.outcome a (htold.sound.lt_next a (htold.sound.yielded a _ hyielded))
      · rw [hyielded] at hrun
        cases hrun
      · rw [hyielded] at hyld
        cases hyld
        exact absurd hr (hes a e)
      · rw [hyielded] at hset
        cases hset
    · exact hup
  | unwind a => exact he.elim

/-- No cell remembers a failed dial. -/
def AllDialled (cells : Table τ (Live ε ℕ)) : Prop := ∀ target live, cells.lookup target = some live → Dialled live

theorem AllDialled.insert {cells : Table τ (Live ε ℕ)} (h : AllDialled cells) (hlive : Dialled live) (target : τ) :
    AllDialled (cells.insert target live) :=
  Table.forall_lookup_insert (P := fun _ live => Dialled live) target hlive h

theorem AllDialled.retained (h : AllDialled d.streams) : AllDialled d.retained := by
  unfold Destinations.retained
  split_ifs
  · intro other live hlive
    rw [Table.lookup_retain, Option.bind_eq_some_iff] at hlive
    obtain ⟨live', hlive', hkept⟩ := hlive
    split_ifs at hkept
    cases hkept
    exact h other live hlive'
  · exact h

theorem AllDialled.step (h : AllDialled d.streams) (he : e.Dials) : AllDialled (d.step e).streams := by
  cases e with
  | ends stream => exact h
  | dial target event =>
    dsimp only [Destinations.step]
    cases hlook : d.streams.lookup target with
    | none => exact h
    | some live => exact h.insert ((h target live hlook).step he) target
  | stream target =>
    refine h.retained.insert ?_ target
    cases hlook : d.retained.lookup target with
    | none => exact dialled_get ⟨Live.sound_new, nofun⟩ (fun _ _ => List.not_mem_nil) _
    | some live =>
      obtain ⟨-, es, htold, hes⟩ := h.retained target live hlook
      exact dialled_get htold hes _

/-- **Ended destinations are forgotten in every run** without a failed dial. -/
theorem bounded_run (es : List (Event τ ε)) (hes : ∀ e ∈ es, e.Dials) (target : τ) :
    (run step (new : Destinations τ ε) es).Bounded target := by
  have hcells : AllDialled (run step (new : Destinations τ ε) es).streams :=
    run_invariant (I := fun d : Destinations τ ε => AllDialled d.streams) (G := fun _ e => e.Dials)
      (fun _ _ h he => h.step he) es new nofun (along_of_mem es _ fun e he _ => hes e he)
  rw [bounded_iff]
  rintro - other - live hlive (hdown | ⟨a, hopen, hgone⟩)
  · exact (hcells other live hlive).1 hdown
  · obtain ⟨-, es', htold, -⟩ := hcells other live hlive
    exact hgone (htold.pending_of_opening hopen)

/-- The dials of the first destinations, which all fail. -/
def failing (n : ℕ) : List (Event ℕ Unit) :=
  (List.range n).flatMap fun i => [.stream i, .dial i (.yields 0 (.error ())), .dial i (.settle 0)]

/-- The table is at its limit, with no stream and no dial in progress, and the next call forgets nothing. -/
theorem failed_remembered : let d : Destinations ℕ Unit := run step new (failing 64)
    d.streams.size = maxDestinations ∧ (d.stream 64).streams.size = maxDestinations + 1 ∧ ¬ d.Bounded 64 := by
  refine ⟨by decide +kernel, by decide +kernel, fun h => ?_⟩
  have hdown : (((run step new (failing 64) : Destinations ℕ Unit).stream 64).streams.lookup 0).any
      (fun live => match live.state with | .down => true | _ => false) = true := by decide +kernel
  obtain ⟨live, hlive, hstate⟩ := (Option.any_eq_true _ _).mp hdown
  obtain ⟨c, hup, -⟩ | ⟨a, hopen, -⟩ := h (by decide +kernel) 0 (by decide) live hlive
  · simp [hup] at hstate
  · simp [hopen] at hstate

end Destinations

end Vless

end Boreas
