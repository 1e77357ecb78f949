import Boreas.QuicDriver

/-! # Streams that the driver forgets

`service` sweeps out the streams whose sender to the task is gone and whose output is finished.  The sender of a
stream that its consumer has dropped goes in `pump_in`, and that runs for readable streams only.  So `forgets_iff`: a
pass forgets its finished streams exactly when the peer has made each of them readable, or the sender was gone
already.  The driver leaves its loop when the handles are gone and the table is empty; `left_iff` says when that
comes. -/

namespace Boreas.Quic

open L4 Runs

/-- The consumer has dropped the stream, and its output has been sent with the FIN, or has failed. -/
def Over (b : Bridge) : Prop := b.reading = false ∧ b.writing = false ∧ b.finished = true

theorem pumpIn_of_dropped (h : b.reading = false) : pumpIn b answers = b.dropSender := by
  unfold pumpIn
  cases hto : b.toTask
  · cases b
    simp_all [Bridge.dropSender]
  · simp [h]

namespace Driver

variable {d : Driver} {id : ℕ} {b : Bridge}

theorem lookup_pumpInOf : (d.pumpInOf turn).streams.lookup id =
    if turn.1 = id then (d.streams.lookup id).map (pumpIn · turn.2) else d.streams.lookup id := by
  unfold pumpInOf
  rcases hlook : d.streams.lookup turn.1 with _ | b
  · split_ifs with hid
    · subst hid
      simp [hlook]
    · rfl
  dsimp only
  rw [Table.lookup_insert_eq]
  by_cases hid : turn.1 = id
  · subst hid
    simp [hlook]
  · rw [if_neg (Ne.symm hid), if_neg hid]

theorem lookup_pumpInOf_run (h : Over b) (readable : List (ℕ × List RecvAnswer))
    (hb : d.streams.lookup id = some b) : (run pumpInOf d readable).streams.lookup id =
      some (if id ∈ readable.map Prod.fst then b.dropSender else b) := by
  induction readable generalizing d b with
  | nil => simpa using hb
  | cons turn readable ih =>
    simp only [run_cons, List.map_cons, List.mem_cons]
    by_cases hid : turn.1 = id
    · have hstep : (d.pumpInOf turn).streams.lookup id = some b.dropSender := by
        rw [lookup_pumpInOf, if_pos hid, hb, Option.map_some, pumpIn_of_dropped h.1]
      have hsame : b.dropSender.dropSender = b.dropSender := rfl
      rw [ih (b := b.dropSender) h hstep, hsame, ite_self, if_pos (.inl hid.symm)]
    · have hstep : (d.pumpInOf turn).streams.lookup id = some b := by rw [lookup_pumpInOf, if_neg hid, hb]
      rw [ih h hstep]
      exact congrArg some (if_congr (or_iff_right (Ne.symm hid)).symm rfl rfl)

theorem lookup_pumpOutOf (turn : ℕ × List SendAnswer) (h : ∀ b, d.streams.lookup id = some b → b.finished = true) :
    (d.pumpOutOf turn).streams.lookup id = d.streams.lookup id := by
  unfold pumpOutOf
  rcases hlook : d.streams.lookup turn.1 with _ | b'
  · rfl
  dsimp only
  rw [Table.lookup_insert_eq]
  split_ifs with hid
  · rw [hid, hlook, pumpOut, if_pos (h b' (hid ▸ hlook))]
  · rfl

theorem lookup_pumpOutOf_run (sweep : List (ℕ × List SendAnswer))
    (h : ∀ b, d.streams.lookup id = some b → b.finished = true) :
    (run pumpOutOf d sweep).streams.lookup id = d.streams.lookup id := by
  induction sweep generalizing d with
  | nil => rfl
  | cons turn sweep ih =>
    have hstep := lookup_pumpOutOf turn h
    rw [run_cons, ih (fun b hb => h b (hstep ▸ hb)), hstep]

theorem lookup_pumpInOf_none (readable : List (ℕ × List RecvAnswer)) (hb : d.streams.lookup id = none) :
    (run pumpInOf d readable).streams.lookup id = none := by
  induction readable generalizing d with
  | nil => exact hb
  | cons turn readable ih =>
    refine ih ?_
    simp [lookup_pumpInOf, hb]

theorem lookup_service (h : ∀ b, d.streams.lookup id = some b → Over b) :
    (d.service readable sweep).streams.lookup id =
      (d.streams.lookup id).filter fun b => b.toTask = true ∧ id ∉ readable.map Prod.fst := by
  rw [service, sweepOut, Table.lookup_retain]
  cases hb : d.streams.lookup id with
  | none =>
    have hin := lookup_pumpInOf_none readable hb
    rw [lookup_pumpOutOf_run sweep (by simp [hin]), hin]
    rfl
  | some b =>
    have hover := h b hb
    have hin := lookup_pumpInOf_run hover readable hb
    have hfin : ∀ b', (run pumpInOf d readable).streams.lookup id = some b' → b'.finished = true := by
      rw [hin]
      rintro _ ⟨⟩
      split_ifs
      · exact hover.2.2
      · exact hover.2.2
    rw [lookup_pumpOutOf_run sweep hfin, hin, Option.bind_some]
    by_cases hread : id ∈ readable.map Prod.fst <;> cases hto : b.toTask <;>
      simp [hread, hto, hover.2.2, Bridge.dropSender, Option.filter_some]

/-- A pass forgets the streams that are over; without any other stream the table is empty, and a driver without handles
ends. -/
structure Forgets (d : Driver) (readable : List (ℕ × List RecvAnswer)) (sweep : List (ℕ × List SendAnswer)) : Prop where
  removed : ∀ id b, d.streams.lookup id = some b → Over b → (d.service readable sweep).streams.lookup id = none
  ends : (∀ id b, d.streams.lookup id = some b → Over b) → ∀ id, (d.service readable sweep).streams.lookup id = none

/-- **Finished streams are forgotten** by a pass exactly when each of them is readable or has lost its sender. -/
theorem forgets_iff (d : Driver) (readable : List (ℕ × List RecvAnswer)) (sweep : List (ℕ × List SendAnswer)) :
    d.Forgets readable sweep ↔
      ∀ id b, d.streams.lookup id = some b → Over b → b.toTask = false ∨ id ∈ readable.map Prod.fst := by
  have hkept : ∀ id b, d.streams.lookup id = some b → Over b → ((d.service readable sweep).streams.lookup id = none ↔
      b.toTask = false ∨ id ∈ readable.map Prod.fst) := by
    intro id b hb hover
    rw [lookup_service (by simpa [hb] using hover), hb, Option.filter_some]
    cases b.toTask <;> simp
  constructor
  · intro h id b hb hover
    exact (hkept id b hb hover).mp (h.removed id b hb hover)
  · intro h
    refine ⟨fun id b hb hover => (hkept id b hb hover).mpr (h id b hb hover), fun hall id => ?_⟩
    cases hb : d.streams.lookup id with
    | some b => exact (hkept id b hb (hall id b hb)).mpr (h id b hb (hall id b hb))
    | none => rw [lookup_service (by simp [hb]), hb, Option.filter_none]

end Driver

/-! ### The loop -/

/-- `Driver::run`: the last handle is gone (`closing`), the loop was left. -/
structure Loop extends Driver where
  closing : Bool
  left : Bool

/-- What is readable for a pass, and its sweep. -/
abbrev Pass := List (ℕ × List RecvAnswer) × List (ℕ × List SendAnswer)

/-- The head of the loop, and a command or the end of the commands. -/
inductive Turn
  | service (pass : Pass)
  | openBidi (present : Bool)
  | handlesGone

namespace Loop

def turn (l : Loop) : Turn → Loop
  | .service pass =>
    if l.left then l
    else
      let d := l.toDriver.service pass.1 pass.2
      ⟨d, l.closing, l.closing && d.streams.entries.isEmpty⟩
  | .openBidi present => if l.closing || l.left then l else { l with toDriver := (l.toDriver.openBidi present).1 }
  | .handlesGone => { l with closing := true }

theorem left_run (h : l.left = true) (turns : List Turn) : (run turn l turns).left = true := by
  refine run_kept (I := fun l : Loop => l.left = true) (fun l t hl => ?_) turns l h
  cases t <;> simp [turn, hl]

/-- **Without handles and consumers the loop is left** exactly when each stream is readable in one of the passes, or has
lost its sender. -/
theorem left_iff {l : Loop} (hclosing : l.closing = true) (hleft : l.left = false)
    (hover : ∀ id b, l.streams.lookup id = some b → Over b) (pass : Pass) (passes : List Pass) :
    (run turn l ((pass :: passes).map .service)).left = true ↔
      ∀ id b, l.streams.lookup id = some b → b.toTask = false ∨ ∃ p ∈ pass :: passes, id ∈ p.1.map Prod.fst := by
  have hkept : ∀ id b, (l.toDriver.service pass.1 pass.2).streams.lookup id = some b ↔
      l.streams.lookup id = some b ∧ b.toTask = true ∧ id ∉ pass.1.map Prod.fst := by
    intro id b
    rw [Driver.lookup_service (hover id), Option.filter_eq_some_iff, decide_eq_true_iff]
  have hturn : l.turn (.service pass) = ⟨l.toDriver.service pass.1 pass.2, true,
      (l.toDriver.service pass.1 pass.2).streams.entries.isEmpty⟩ := by
    simp [turn, hleft, hclosing]
  rw [List.map_cons, run_cons, hturn]
  cases passes with
  | nil =>
    refine Table.entries_isEmpty_iff.trans (forall₂_congr fun id b => ?_)
    rw [ne_eq, hkept, List.exists_mem_cons_iff]
    cases b.toTask <;> simp
  | cons next passes =>
    -- What this pass has not forgotten is up to the passes that follow.
    have hnext : (∀ id b, (l.toDriver.service pass.1 pass.2).streams.lookup id = some b →
        b.toTask = false ∨ ∃ p ∈ next :: passes, id ∈ p.1.map Prod.fst) ↔
          ∀ id b, l.streams.lookup id = some b →
            b.toTask = false ∨ ∃ p ∈ pass :: next :: passes, id ∈ p.1.map Prod.fst := by
      refine forall₂_congr fun id b => ?_
      rw [hkept, List.exists_mem_cons_iff _ pass]
      cases b.toTask <;> tauto
    by_cases hempty : (l.toDriver.service pass.1 pass.2).streams.entries.isEmpty = true
    · exact iff_of_true (left_run hempty _)
        (hnext.mp fun id b hb => absurd hb (Table.entries_isEmpty_iff.mp hempty id b))
    · rw [Bool.eq_false_of_not_eq_true hempty]
      exact (left_iff rfl rfl (fun id b hb => hover id b ((hkept id b).mp hb).1) next passes).trans hnext
termination_by passes.length

end Loop

/-- A stream is opened and dropped at once, and the driver sends its FIN.  The peer sends nothing: the stream is over,
and the next pass keeps it. -/
theorem kept_while_silent :
    let s := run System.step (System.start 0 4) [.openBidi true, .drop 0, .service [] [(0, [])]]
    ∃ b, s.streams.lookup 0 = some b ∧ Over b ∧ (s.toDriver.service [] [(0, [])]).streams.lookup 0 = some b :=
  ⟨_, rfl, ⟨rfl, rfl, rfl⟩, rfl⟩

end Boreas.Quic
