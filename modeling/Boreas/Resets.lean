import Boreas.Terminator

/-! # Resets of a terminated connection

A reset travels from the socket to the task: the poll takes it, `harvest` queues the end of the connection, and the
loop over ended connections raises the flag that a read looks at (`stage_run`).  A read made when it is not on its way
returns ConnectionReset after the last byte (`reset_run`); on its way it is read as a clean end. -/

namespace Boreas.L4

open Entry Runs

namespace Terminator

def Unannounced (t : Terminator) : Prop :=
  (t.entry.closing = false ∧ ∃ s, t.entry.socket = some s ∧ s.state = .closed) ∨ true ∈ t.entry.closed

def ReadsTold (t : Terminator) (op : Op) : Prop := ∀ room, op = .read room → ¬ t.Unannounced

structure Taken (t : Terminator) : Prop where
  polling : ∃ again, t.phase = .polling again
  closing : t.entry.closing = false
  closed : ∃ s, t.entry.socket = some s ∧ s.state = .closed ∧ s.tuple = false

structure Queued (t : Terminator) : Prop where
  removed : t.entry.standing = .removed
  closed : t.entry.closed = [true]
  accepted : t.entry.accepted = true → t.phase = .accepting
  plumbed : t.bridge ≠ none → t.conn = true

structure Told (t : Terminator) : Prop where
  removed : t.entry.standing = .removed
  closed : t.entry.closed = []
  accepted : t.entry.accepted = false
  told : ∀ b, t.bridge = some b → b.reset = true ∧ b.toTask = false

def Stage (t : Terminator) : Prop := t.Taken ∨ t.Queued ∨ t.Told

variable {t : Terminator}

theorem Taken.unannounced (h : t.Taken) : t.Unannounced := by
  obtain ⟨s, hs, hcl, -⟩ := h.closed
  exact .inl ⟨h.closing, s, hs, hcl⟩

theorem Queued.unannounced (h : t.Queued) : t.Unannounced := by
  refine .inr ?_
  rw [h.closed]
  exact List.mem_singleton_self true

/-! ### The poll and the harvest -/

variable [Smoltcp]

theorem socket_onEvent (e : Entry) : (e.onEvent event).socket = e.socket.map (Smoltcp.process · event) := by
  cases hs : e.standing <;> simp [Entry.onEvent, Entry.socket, hs]

theorem closing_onEvent (e : Entry) : (e.onEvent event).closing = e.closing := by
  cases hs : e.standing <;> simp [Entry.onEvent, hs]

theorem taken_of_resets (h : t.resets op = true) : (t.step op).Taken := by
  unfold resets at h
  split at h
  · split at h
    · rename_i again s hphase hs
      simp only [Bool.and_eq_true, Bool.not_eq_true'] at h
      have hstep : t.step (.event .rst) = { t with entry := t.entry.onEvent .rst } := by
        simp only [step, onEvent, hphase]
      rw [hstep]
      refine ⟨⟨again, hphase⟩, ?_, Smoltcp.process s .rst, ?_, Smoltcp.process_rst h.1.1⟩
      · rw [closing_onEvent]
        exact h.2
      · rw [socket_onEvent, hs]
        rfl
    · cases h
  · cases h

theorem Taken.harvest (hsound : Sound t) (h : t.Taken) (refused : Bool) : (t.drive refused).Stage := by
  obtain ⟨again, hphase⟩ := h.polling
  obtain ⟨s, hs, hcl, htuple⟩ := h.closed
  have hdrive : t.drive refused =
      { t with entry := t.entry.harvest, phase := if again then .transmitting else .accepting } := by
    simp only [drive, hphase]
  rw [hdrive]
  have hopen : t.entry.closed = [] := by
    by_contra hne
    simp [Entry.socket, hsound.closed hne] at hs
  cases hstan : t.entry.standing with
  | removed => simp [Entry.socket, hstan] at hs
  | listener s' =>
    obtain rfl : s' = s := by simpa [Entry.socket, hstan] using hs
    obtain ⟨-, hacc, hbr, -⟩ := hsound.listener s' hstan
    have hharv : t.entry.harvest = { t.entry with standing := .removed } := by
      simp [Entry.harvest, Entry.convert, Entry.reap, hstan, hcl, htuple]
    rw [hharv]
    refine .inr (.inr ⟨rfl, hopen, hacc, ?_⟩)
    intro b hb
    rw [show t.bridge = some b from hb] at hbr
    cases hbr
  | established s' =>
    obtain rfl : s' = s := by simpa [Entry.socket, hstan] using hs
    have hharv : t.entry.harvest =
        { t.entry with standing := .removed, closing := false, closed := [true] } := by
      simp [Entry.harvest, Entry.convert, Entry.reap, hstan, hcl, hopen, h.closing]
    rw [hharv]
    refine .inr (.inl ⟨rfl, rfl, ?_, hsound.plumbed (by simp [hstan])⟩)
    intro hacc
    rcases again with _ | _
    · rfl
    have hnot := hsound.published (by rw [hphase]; trivial)
    rw [show t.entry.accepted = true from hacc] at hnot
    cases hnot

theorem Taken.step (hsound : Sound t) (h : t.Taken) (op : Op) : (t.step op).Stage := by
  cases op with
  | drive refused => exact h.harvest hsound refused
  | event event =>
    obtain ⟨again, hphase⟩ := h.polling
    obtain ⟨s, hs, hcl, htuple⟩ := h.closed
    have hstep : t.step (.event event) = { t with entry := t.entry.onEvent event } := by
      simp only [Terminator.step, onEvent, hphase]
    rw [hstep]
    refine .inl ⟨h.polling, ?_, Smoltcp.process s event, ?_, (Smoltcp.closed_process hcl event).1,
      (Smoltcp.closed_process hcl event).2 htuple⟩
    · rw [closing_onEvent]
      exact h.closing
    · rw [socket_onEvent, hs]
      rfl
  | _ => exact .inl { h with }

/-! ### The loop over ended connections -/

omit [Smoltcp] in
theorem onStream_bridge (h : (t.onStream call).bridge ≠ none) : t.bridge ≠ none := by
  intro hnone
  simp [onStream, hnone] at h

omit [Smoltcp] in
theorem Queued.onStream (h : t.Queued) (call : Bridge → Bridge) : (t.onStream call).Queued :=
  ⟨h.removed, h.closed, h.accepted, fun hsome => h.plumbed (onStream_bridge hsome)⟩

omit [Smoltcp] in
theorem Queued.not_accepted (h : t.Queued) (hphase : t.phase ≠ .accepting) : t.entry.accepted = false := by
  cases hacc : t.entry.accepted with
  | false => rfl
  | true => exact absurd (h.accepted hacc) hphase

theorem Queued.drive (hsound : Sound t) (h : t.Queued) (refused : Bool) : (t.drive refused).Stage := by
  -- Steps that leave the stack and the bridge to wait.
  have hstay : ∀ phase, t.phase ≠ .accepting → Queued { t with phase := phase } := by
    intro phase hphase
    have hacc := h.not_accepted hphase
    refine ⟨h.removed, h.closed, ?_, h.plumbed⟩
    intro htrue
    rw [show t.entry.accepted = true from htrue] at hacc
    cases hacc
  have hpump : ∀ b phase, t.phase ≠ .accepting → t.conn = true →
      Queued { t with bridge := some b, phase := phase } := fun b phase hphase hconn =>
    ⟨h.removed, h.closed, (hstay phase hphase).accepted, fun _ => hconn⟩
  unfold Terminator.drive
  cases hphase : t.phase with
  | waiting => exact .inr (.inl (hstay _ (by simp [hphase])))
  | polling again =>
    rw [harvest_removed h.removed]
    exact .inr (.inl (hstay _ (by simp [hphase])))
  | accepting =>
    dsimp only [accept]
    split_ifs with hacc
    · rw [abort_removed h.removed]
      refine .inr (.inl ⟨h.removed, h.closed, fun hfalse => (nomatch hfalse), ?_⟩)
      exact fun hsome => absurd (hsound.accepted hacc) hsome
    · exact .inr (.inl ⟨h.removed, h.closed, fun hfalse => (nomatch hfalse), fun _ => rfl⟩)
    · exact .inr (.inl ⟨h.removed, h.closed, fun htrue => absurd htrue hacc, h.plumbed⟩)
  | receiving =>
    have hne : t.phase ≠ .accepting := by simp [hphase]
    dsimp only
    split
    · rw [receive, recv_removed h.removed]
      split_ifs
      · exact .inr (.inl (hpump _ _ hne (by assumption)))
      · exact .inr (.inl (hstay _ hne))
    · exact .inr (.inl (hstay _ hne))
  | sending =>
    have hne : t.phase ≠ .accepting := by simp [hphase]
    dsimp only
    split
    · rw [send, close_removed h.removed]
      split
      · split_ifs
        · exact .inr (.inl (hpump _ _ hne (by assumption)))
        · exact .inr (.inl (hstay _ hne))
      · rw [send_removed h.removed]
        exact .inr (.inl (hpump _ _ hne (by assumption)))
    · exact .inr (.inl (hstay _ hne))
  | transmitting => exact .inr (.inl (hstay _ (by simp [hphase])))
  | ending =>
    have hacc := h.not_accepted (by simp [hphase])
    simp only [finish, h.closed]
    by_cases hconn : t.conn = true
    · rw [if_pos hconn]
      refine .inr (.inr ⟨h.removed, rfl, hacc, ?_⟩)
      intro b hb
      rcases hbr : t.bridge with _ | b'
      · simp [hbr] at hb
      simp only [hbr, Option.map_some, if_true, Option.some.injEq] at hb
      rw [← hb]
      exact ⟨rfl, rfl⟩
    · rw [if_neg hconn]
      refine .inr (.inr ⟨h.removed, rfl, hacc, ?_⟩)
      intro b hb
      exact absurd (h.plumbed (by simp [show t.bridge = some b from hb])) hconn

theorem Queued.step (hsound : Sound t) (h : t.Queued) (op : Op) : (t.step op).Stage := by
  cases op with
  | drive refused => exact h.drive hsound refused
  | event event =>
    unfold Terminator.step onEvent
    dsimp only
    rw [onEvent_removed h.removed]
    split <;> exact .inr (.inl h)
  | _ => exact .inr (.inl (h.onStream _))

/-! ### After the flag -/

omit [Smoltcp] in
theorem Told.onStream (h : t.Told)
    (hcall : ∀ b, (call b).reset = b.reset ∧ (call b).toTask = b.toTask) : (t.onStream call).Told := by
  refine ⟨h.removed, h.closed, h.accepted, ?_⟩
  intro b' hb'
  rcases hb : t.bridge with _ | b
  · simp [Terminator.onStream, hb] at hb'
  simp only [Terminator.onStream, hb, Option.map_some, Option.some.injEq] at hb'
  rw [← hb']
  split_ifs
  · rw [(hcall b).1, (hcall b).2]
    exact h.told b hb
  · exact h.told b hb

theorem Told.drive (h : t.Told) (refused : Bool) : (t.drive refused).Told := by
  have hstay : ∀ phase, Told { t with phase := phase } := fun phase => { h with }
  unfold Terminator.drive
  cases hphase : t.phase with
  | waiting => exact hstay _
  | polling again =>
    rw [harvest_removed h.removed]
    exact hstay _
  | accepting =>
    dsimp only [accept]
    rw [if_neg (by simp [h.accepted])]
    exact hstay _
  | receiving =>
    dsimp only
    split
    · rename_i b hconn hb
      rw [receive, if_neg (by simp [Bridge.reserves, (h.told b hb).2])]
      exact hstay _
    · exact hstay _
  | sending =>
    dsimp only
    split
    · rename_i b hconn hb
      have htold := h.told b hb
      have hpump : ∀ b' phase, b'.reset = true ∧ b'.toTask = false →
          Told { t with bridge := some b', phase := phase } := by
        intro b' phase hb'
        refine ⟨h.removed, h.closed, h.accepted, ?_⟩
        intro b₁ hb₁
        cases hb₁
        exact hb'
      rw [send, close_removed h.removed]
      split
      · split_ifs
        · exact hpump _ _ htold
        · exact hstay _
      · rename_i hnext
        rw [send_removed h.removed]
        obtain ⟨-, htoTask, hreset⟩ := nextOut_keeps hnext
        exact hpump _ _ (by rw [hreset, htoTask]; exact htold)
    · exact hstay _
  | transmitting => exact hstay _
  | ending =>
    simp only [finish, h.closed]
    exact hstay _

theorem Told.step (h : t.Told) (op : Op) : (t.step op).Told := by
  cases op with
  | drive refused => exact h.drive refused
  | event event =>
    unfold Terminator.step onEvent
    dsimp only
    rw [onEvent_removed h.removed]
    split <;> exact h
  | read room => exact h.onStream fun b => by rw [b.pollRead_keeps]; exact ⟨rfl, rfl⟩
  | write bytes =>
    refine h.onStream fun b => ?_
    unfold Bridge.pollWrite
    split_ifs <;> exact ⟨rfl, rfl⟩
  | shutdown | drop => exact h.onStream fun b => ⟨rfl, rfl⟩

theorem Stage.step (hsound : Sound t) (h : t.Stage) (op : Op) : (t.step op).Stage := by
  obtain htaken | hqueued | htold := h
  · exact htaken.step hsound op
  · exact hqueued.step hsound op
  · exact .inr (.inr (htold.step op))

end Terminator

namespace Ledger

open Terminator

section Runs

variable [Smoltcp]

theorem stage_run (cap : ℕ) (ops : List Op) : Sound (run step (opened cap) ops).terminator ∧
      ((run step (opened cap) ops).reset = true → (run step (opened cap) ops).terminator.Stage) := by
  refine run_kept (I := fun l : Ledger => Sound l.terminator ∧ (l.reset = true → l.terminator.Stage)) ?_ ops _ ?_
  · rintro l op ⟨hsound, hstage⟩
    refine ⟨hsound.step op, ?_⟩
    intro hreset
    obtain hpre | hnow := Bool.or_eq_true_iff.mp hreset
    · exact (hstage hpre).step hsound op
    · exact .inl (taken_of_resets hnow)
  · exact ⟨sound_listening cap, fun h => (nomatch h)⟩

/-- **After a reset, a read returns the bytes that were delivered and then ConnectionReset**, in every run in which the
task does not read while the reset is on its way. -/
theorem reset_run (capacity : ℕ) (ops : List Op) (room : ℕ)
    (htold : Along step (fun l op => l.terminator.ReadsTold op) (opened capacity) (ops ++ [.read room]))
    (hreset : (run step (opened capacity) ops).reset = true) {result : ReadResult}
    (hresult : (run step (opened capacity) ops).terminator.readResult room = some result) :
    if (run step (opened capacity) ops).terminator.unread = [] then result = .connectionReset
    else ∃ bytes, result = .data bytes := by
  obtain ⟨-, hstage⟩ := stage_run capacity ops
  have hanno := ((along_snoc _ ops (.read room)).mp htold).2 room rfl
  obtain htaken | hqueued | htold := hstage hreset
  · exact absurd htaken.unannounced hanno
  · exact absurd hqueued.unannounced hanno
  generalize (run step (opened capacity) ops).terminator = t at htold hresult
  unfold readResult at hresult
  rcases hb : t.bridge with _ | b
  · simp [hb] at hresult
  obtain ⟨hflag, hdrop⟩ := htold.told b hb
  simp only [hb] at hresult
  split_ifs at hresult
  cases hresult
  have hunr : t.unread = b.unread := by simp [unread, hb]
  rw [hunr]
  split_ifs with hempty
  · rw [Bridge.pollRead_of_drained hempty, hflag, hdrop]
    rfl
  · exact Bridge.pollRead_of_unread hempty room

end Runs

def resetPass : List Op := handshake ++ pass [.rst] 8

theorem reset_after_pass : (run step (opened 64) resetPass).reset = true ∧
      ∃ result, (run step (opened 64) resetPass).terminator.readResult 16 = some result ∧
        result = .connectionReset := by
  have hreset : (run step (opened 64) resetPass).reset = true := by decide
  have hres : (run step (opened 64) resetPass).terminator.readResult 16 = some .connectionReset := by
    decide
  have hentry : (run step (opened 64) resetPass).terminator.entry = ⟨.removed, false, false, []⟩ := by
    decide
  have htold : Along step (fun l op => l.terminator.ReadsTold op) (opened 64) (resetPass ++ [.read 16]) := by
    refine (along_snoc _ _ _).mpr ⟨along_of_mem _ _ ?_, ?_⟩
    · intro op hop l room heq
      subst heq
      simp [resetPass, handshake, pass] at hop
    · intro room _ hunannounced
      simp [Unannounced, socket, hentry] at hunannounced
  have h := reset_run 64 resetPass 16 htold hreset hres
  rw [if_pos (by decide)] at h
  exact ⟨hreset, _, hres, h⟩

def resetInPump : List Op := handshake ++ pass [.rst] 3

/-- **Between the pump and the loop over ended connections, a reset is read as a clean end.** -/
theorem reset_read_as_end : (run step (opened 64) resetInPump).reset = true ∧
      (run step (opened 64) resetInPump).terminator.readResult 16 = some .endOfStream := by
  decide

end Ledger

end Boreas.L4
