import Boreas.Terminator

/-! # Backpressure on a terminated connection

When the task's channel is full, the client's bytes stay in the socket (`balance_step`).  They are lost in one place
only: `harvest` removes a socket that is CLOSED.  `delivered_iff` says when a task that reads the end of its stream
has read every byte. -/

namespace Boreas.L4

open List hiding count drop
open Runs

namespace Entry

variable [Smoltcp]

def rx (e : Entry) : Bytes :=
  match e.socket with
  | some socket => socket.rx
  | none => []

theorem rx_onEvent (e : Entry) (event : Event) :
    (e.onEvent event).rx = e.rx ++ (e.socket.map (Smoltcp.gained · event)).getD [] := by
  cases hs : e.standing with
  | listener s | established s => simp [rx, socket, onEvent, hs, Smoltcp.rx_eq]
  | removed => simp [socket, onEvent, hs]

theorem rx_recv {e : Entry} (h : e.recv count = (e', .ok bytes)) : bytes ++ e'.rx = e.rx := by
  unfold recv at h
  cases hs : e.standing with
  | listener s | removed => simp [hs] at h
  | established s =>
    simp only [hs] at h
    split_ifs at h
    · rcases hslice : Smoltcp.recvSlice s count with error | res
      · cases error <;> simp [hslice] at h
      simp only [hslice] at h
      obtain ⟨rfl, rfl⟩ := h
      simpa [rx, socket, hs] using (Smoltcp.recvSlice_ok hslice).1
    · cases h
    · cases h

theorem rx_close (e : Entry) : e.close.rx = e.rx := by
  cases hs : e.standing <;> simp [rx, socket, close, hs, Smoltcp.rx_close]

theorem rx_abort (e : Entry) : e.abort.rx = e.rx := by
  cases hs : e.standing <;> simp [rx, socket, abort, hs, Smoltcp.rx_abort]

variable {e : Entry}

theorem send_keeps (hs : e.standing = .established s) (bytes : Bytes) :
    ∃ s', (e.send bytes).1.standing = .established s' ∧ s'.rx = s.rx ∧ s'.state = s.state := by
  unfold send
  rw [hs]
  dsimp only
  by_cases hmay : s.maySend = false
  · rw [if_pos hmay]
    exact ⟨s, hs, rfl, rfl⟩
  rw [if_neg hmay]
  rcases hslice : Smoltcp.sendSlice s bytes with _ | ⟨written, s'⟩
  · exact ⟨s, hs, rfl, rfl⟩
  cases written with
  | zero => exact ⟨s, hs, rfl, rfl⟩
  | succ written =>
    exact ⟨s', rfl, Smoltcp.sendSlice_some hslice⟩

theorem rx_send (e : Entry) (bytes : Bytes) : (e.send bytes).1.rx = e.rx := by
  cases hs : e.standing with
  | established s =>
    obtain ⟨s', hs', hrx, -⟩ := send_keeps hs bytes
    simp [rx, socket, hs, hs', hrx]
  | _ => simp [send, hs]

def lost (e : Entry) : Bytes := if e.harvest.standing = .removed then e.rx else []

omit [Smoltcp] in
theorem rx_of_removed (h : e.standing = .removed) : e.rx = [] := by
  simp [rx, socket, h]

omit [Smoltcp] in
theorem rx_convert (h : e.convert.standing ≠ .removed) : e.convert.rx = e.rx := by
  unfold convert at h ⊢
  cases hs : e.standing with
  | listener s =>
    simp only [hs] at h ⊢
    split_ifs at h ⊢
    · rfl
    · simp [rx, socket, hs]
    · exact absurd rfl h
  | _ => rfl

omit [Smoltcp] in
theorem rx_reap (h : e.reap.standing ≠ .removed) : e.reap = e := by
  unfold reap at h ⊢
  cases hs : e.standing with
  | established s =>
    simp only [hs] at h ⊢
    split_ifs at h ⊢
    · exact absurd rfl h
    · rfl
  | _ => rfl

omit [Smoltcp] in
theorem rx_harvest (e : Entry) : e.harvest.rx ++ e.lost = e.rx := by
  unfold lost
  by_cases hrem : e.harvest.standing = .removed
  · rw [if_pos hrem, rx_of_removed hrem, nil_append]
  · have hreap : e.harvest = e.convert := rx_reap hrem
    rw [if_neg hrem, append_nil, hreap]
    exact rx_convert (hreap ▸ hrem)

def Over (e : Entry) : Prop :=
  e.standing = .removed ∨ ∃ s, e.standing = .established s ∧ s.rx = [] ∧ s.state.finished

omit [Smoltcp] in
theorem Over.rx (h : e.Over) : e.rx = [] := by
  obtain hrem | ⟨s, hs, hrx, -⟩ := h
  · exact rx_of_removed hrem
  · simp [Entry.rx, socket, hs, hrx]

theorem over_of_recv (h : e.recv count = (e', .error error))
    (herror : error ≠ .wouldBlock) : e.Over ∨ ∃ s, e.standing = .listener s := by
  unfold recv at h
  cases hs : e.standing with
  | listener s => exact .inr ⟨s, rfl⟩
  | removed => exact .inl (.inl hs)
  | established s =>
    simp only [hs] at h
    split_ifs at h with hcan hmay
    · obtain ⟨r, hok⟩ := Smoltcp.recvSlice_of_canRecv hcan count
      simp [hok] at h
    · cases h
      exact absurd rfl herror
    · simp only [Bool.or_eq_true, not_or, Bool.not_eq_true] at hmay
      obtain ⟨hreceives, hrx⟩ := Bool.or_eq_false_iff.mp hmay.1
      refine .inl (.inr ⟨s, hs, ?_, hreceives, hmay.2⟩)
      simpa using hrx

theorem Over.onEvent (h : e.Over) (event : Event) : (e.onEvent event).Over := by
  obtain hrem | ⟨s, hs, hrx, hfin⟩ := h
  · exact .inl (by simp [Entry.onEvent, hrem])
  · obtain ⟨hrx', hfin'⟩ := Smoltcp.finished_process hfin event
    exact .inr ⟨Smoltcp.process s event, by simp [Entry.onEvent, hs], hrx'.trans hrx, hfin'⟩

theorem Over.send (h : e.Over) (bytes : Bytes) : (e.send bytes).1.Over := by
  obtain hrem | ⟨s, hs, hrx, hfin⟩ := h
  · exact .inl (by simp [Entry.send, hrem])
  · obtain ⟨s', hs', hrx', hstate⟩ := send_keeps hs bytes
    exact .inr ⟨s', hs', by rw [hrx', hrx], by rwa [hstate]⟩

theorem Over.close (h : e.Over) : e.close.Over := by
  obtain hrem | ⟨s, hs, hrx, hfin⟩ := h
  · exact .inl (by simp [Entry.close, hrem])
  · exact .inr ⟨Smoltcp.close s, by simp [Entry.close, hs], (Smoltcp.rx_close s).trans hrx,
      Smoltcp.finished_close hfin⟩

omit [Smoltcp] in
theorem Over.harvest (h : e.Over) : e.harvest.Over := by
  obtain hrem | ⟨s, hs, hrx, hfin⟩ := h
  · exact .inl (by simp [Entry.harvest, convert, reap, hrem])
  · by_cases hcl : s.state = .closed
    · exact .inl (by simp [Entry.harvest, convert, reap, hs, hcl])
    · refine .inr ⟨s, ?_, hrx, hfin⟩
      simp [Entry.harvest, convert, reap, hs, hcl]

end Entry

open Entry (convert harvest reap rx_of_removed socket)

namespace Terminator

/-! ### One step -/

variable [Smoltcp]

def discards (t : Terminator) : Op → Bytes
  | .drive _ =>
    match t.phase with
    | .polling _ => t.entry.lost
    | _ => []
  | _ => []

/-- Where the bytes are after a step, the client's first byte first. -/
def Balanced (t t' : Terminator) (gained returned discarded : Bytes) : Prop :=
  t.unread ++ t.entry.rx ++ gained = returned ++ t'.unread ++ t'.entry.rx ++ discarded

omit [Smoltcp] in
theorem balanced_of_same (hunr : t'.unread = t.unread) (hrx : t'.entry.rx = t.entry.rx) : Balanced t t' [] [] [] := by
  unfold Balanced
  rw [hunr, hrx]
  simp

variable {t : Terminator}

variable {b : Bridge}

theorem balanced_receive (hb : t.bridge = some b) : Balanced t (t.receive b) [] [] [] := by
  have hunr : t.unread = b.unread := by simp [unread, hb]
  have hstay : ∀ phase, Balanced t { t with phase := phase } [] [] [] := fun phase => balanced_of_same rfl rfl
  unfold receive
  split_ifs
  · split
    · exact hstay _
    · rename_i entry bytes _ hrecv
      have hrx := Entry.rx_recv hrecv
      unfold Balanced
      simp only [hunr]
      rw [← hrx]
      simp [unread, Bridge.unread_deliver]
    · exact hstay _
    · exact balanced_of_same hunr.symm rfl
    · exact balanced_of_same hunr.symm rfl
  · exact hstay _

theorem balanced_send (hb : t.bridge = some b) : Balanced t (t.send b) [] [] [] := by
  have hunr : t.unread = b.unread := by simp [unread, hb]
  unfold send
  split
  · split_ifs
    · exact balanced_of_same hunr.symm t.entry.rx_close
    · exact balanced_of_same rfl rfl
  rename_i chunk b' hnext
  have hnext := (nextOut_keeps hnext).1
  have hrx := t.entry.rx_send chunk
  split
  · rename_i entry written heq
    rw [heq] at hrx
    split_ifs
    · exact balanced_of_same (hnext.trans hunr.symm) hrx
    · exact balanced_of_same (hnext.trans hunr.symm) hrx
  · exact balanced_of_same (hnext.trans hunr.symm) rfl
  · exact balanced_of_same (hnext.trans hunr.symm) rfl

omit [Smoltcp] in
theorem balanced_finish (t : Terminator) : Balanced t t.finish [] [] [] := by
  unfold finish
  split
  · exact balanced_of_same rfl rfl
  by_cases hconn : t.conn = true
  · rw [if_pos hconn]
    refine balanced_of_same ?_ rfl
    cases hb : t.bridge with
    | none => simp [unread, hb]
    | some b => cases ‹Bool› <;> simp [unread, hb, Bridge.unread, Bridge.markReset, Bridge.dropPlumbing]
  · rw [if_neg hconn]
    exact balanced_of_same rfl rfl

theorem balanced_accept (h : Sound t) (refused : Bool) : Balanced t (t.accept refused) [] [] [] := by
  unfold accept
  split_ifs with hacc
  · exact balanced_of_same rfl t.entry.rx_abort
  · refine balanced_of_same ?_ rfl
    simp [unread, h.accepted hacc, Bridge.unread, Bridge.pair]
  · exact balanced_of_same rfl rfl

theorem balanced_drive (h : Sound t) (refused : Bool) :
    Balanced t (t.drive refused) [] [] (t.discards (.drive refused)) := by
  unfold drive discards
  cases hphase : t.phase with
  | waiting => exact balanced_of_same rfl rfl
  | polling again =>
    unfold Balanced
    have hrx := t.entry.rx_harvest
    simp only [append_nil, append_assoc]
    rw [hrx]
    rfl
  | accepting => exact balanced_accept h refused
  | receiving =>
    dsimp only
    split
    · exact balanced_receive (by assumption)
    · exact balanced_of_same rfl rfl
  | sending =>
    dsimp only
    split
    · exact balanced_send (by assumption)
    · exact balanced_of_same rfl rfl
  | transmitting => exact balanced_of_same rfl rfl
  | ending => exact balanced_finish t

variable {call : Bridge → Bridge}

omit [Smoltcp] in
theorem balanced_onStream (h : ∀ b, (call b).unread = b.unread) : Balanced t (t.onStream call) [] [] [] := by
  refine balanced_of_same ?_ rfl
  cases hb : t.bridge with
  | none => simp [unread, onStream, hb]
  | some b => cases hread : b.reading <;> simp [unread, onStream, hb, hread, h]

theorem balanced_read (t : Terminator) (room : ℕ) :
    Balanced t (t.step (.read room)) [] (t.returns (.read room)) [] := by
  rcases hb : t.bridge with _ | b
  · simp [Balanced, step, returns, readResult, unread, onStream, hb]
  rcases hrd : b.reading with _ | _
  · simp [Balanced, step, returns, readResult, unread, onStream, hb, hrd]
  have hread := b.pollRead_unread room
  simp only [Balanced, step, returns, readResult, unread, onStream, hb, hrd, Option.map_some, if_true,
    Option.getD_some]
  rw [hread]

theorem balanced_event (t : Terminator) (event : Event) :
    Balanced t (t.onEvent event) (t.gains (.event event)) [] [] := by
  unfold onEvent gains
  cases t.phase with
  | polling again =>
    have hrx := t.entry.rx_onEvent event
    unfold Balanced
    simp only [append_nil, append_assoc]
    rw [hrx]
    cases t.entry.socket <;> rfl
  | _ => exact balanced_of_same rfl rfl

/-- **Where every byte is after a step.** -/
theorem balanced_step (h : Sound t) (op : Op) :
    Balanced t (t.step op) (t.gains op) (t.returns op) (t.discards op) := by
  cases op with
  | drive refused => exact balanced_drive h refused
  | event event => exact balanced_event t event
  | read room => exact balanced_read t room
  | write bytes =>
    refine balanced_onStream fun b => ?_
    unfold Bridge.pollWrite
    split_ifs <;> rfl
  | shutdown | drop => exact balanced_onStream fun b => rfl

/-- The driver lets go of its sender only when the socket has no more bytes for the task. -/
def Drained (t : Terminator) : Prop := ∀ b, t.bridge = some b → b.toTask = false → t.entry.Over

omit [Smoltcp] in
theorem drained_onStream (h : Drained t) (hcall : ∀ b, (call b).toTask = b.toTask) : Drained (t.onStream call) := by
  intro b' hb' htoTask
  rcases hb : t.bridge with _ | b
  · simp [onStream, hb] at hb'
  simp only [onStream, hb, Option.map_some, Option.some.injEq] at hb'
  subst hb'
  refine h b hb ?_
  cases hread : b.reading <;> simpa [hread, hcall] using htoTask

theorem drained_receive (hsound : Sound t) (h : Drained t) (hb : t.bridge = some b) : Drained (t.receive b) := by
  unfold receive
  split_ifs with hresv
  · have htoTask : b.toTask = true := by
      simp only [Bridge.reserves, Bool.and_eq_true] at hresv
      exact hresv.1.1
    have hover : ∀ {entry error}, t.entry.recv Bridge.chunk = (entry, .error error) → error ≠ .wouldBlock →
        t.entry.Over := by
      intro entry error hrecv herror
      obtain hover | ⟨s, hs⟩ := Entry.over_of_recv hrecv herror
      · exact hover
      · rw [(hsound.listener s hs).2.2.1] at hb
        cases hb
    split
    · exact h
    · intro b' hb' hfalse
      cases hb'
      rw [show (b.deliver _).toTask = b.toTask from rfl, htoTask] at hfalse
      cases hfalse
    · exact h
    · rename_i hrecv
      exact fun _ _ _ => hover hrecv (by decide)
    · rename_i error hne hreset hrecv
      exact fun _ _ _ => hover hrecv hne
  · exact h

omit [Smoltcp] in
theorem drained_of_over (hb : t.bridge = some b) (h : b.toTask = false → t.entry.Over) : Drained t := by
  intro b' hb' htoTask
  rw [hb] at hb'
  cases hb'
  exact h htoTask

theorem drained_send (h : Drained t) (hb : t.bridge = some b) : Drained (t.send b) := by
  unfold send
  split
  · split_ifs
    · exact drained_of_over rfl fun htoTask => (h b hb htoTask).close
    · exact h
  · rename_i chunk b' hnext
    have hnext := (nextOut_keeps hnext).2.1
    have hover : b'.toTask = false → t.entry.Over := fun hfalse => h b hb (hnext ▸ hfalse)
    split
    · rename_i entry written heq
      have hsend : b'.toTask = false → entry.Over := fun hfalse => by
        have hsent := (hover hfalse).send chunk
        rwa [heq] at hsent
      split_ifs
      · exact drained_of_over rfl hsend
      · exact drained_of_over rfl hsend
    · exact drained_of_over rfl hover
    · exact drained_of_over rfl hover

omit [Smoltcp] in
theorem drained_finish (hsound : Sound t) (h : Drained t) : Drained t.finish := by
  unfold finish
  split
  · exact h
  rename_i reset closed hcl
  have hrem := hsound.closed (by simp [hcl])
  dsimp only
  split_ifs <;> exact fun _ _ _ => .inl hrem

theorem drained_drive (hsound : Sound t) (h : Drained t) (refused : Bool) : Drained (t.drive refused) := by
  unfold drive
  cases hphase : t.phase with
  | waiting => exact h
  | polling again => exact fun b hb htoTask => (h b hb htoTask).harvest
  | accepting =>
    dsimp only [accept]
    split_ifs with hacc
    · intro b hb
      have hnone := hsound.accepted hacc
      rw [show t.bridge = some b from hb] at hnone
      cases hnone
    · intro b hb htoTask
      cases hb
      cases htoTask
    · exact h
  | receiving =>
    dsimp only
    split
    · exact drained_receive hsound h (by assumption)
    · exact h
  | sending =>
    dsimp only
    split
    · exact drained_send h (by assumption)
    · exact h
  | transmitting => exact h
  | ending => exact drained_finish hsound h

theorem drained_step (hsound : Sound t) (h : Drained t) (op : Op) : Drained (t.step op) := by
  cases op with
  | drive refused => exact drained_drive hsound h refused
  | event event =>
    unfold step onEvent
    dsimp only
    split
    · exact fun b hb htoTask => (h b hb htoTask).onEvent event
    · exact h
  | read room => exact drained_onStream h fun b => by rw [b.pollRead_keeps]
  | write bytes =>
    refine drained_onStream h fun b => ?_
    unfold Bridge.pollWrite
    split_ifs <;> rfl
  | shutdown | drop => exact drained_onStream h fun b => rfl

omit [Smoltcp] in
theorem removed_iff (h : Sound t) : t.entry.harvest.standing = .removed ↔
    t.entry.standing = .removed ∨ ∃ s, t.entry.socket = some s ∧ s.state = .closed := by
  cases hs : t.entry.standing with
  | removed => simp [harvest, convert, reap, hs]
  | established s =>
    by_cases hcl : s.state = .closed
    · simp [harvest, convert, reap, socket, hs, hcl]
    · simp [harvest, convert, reap, socket, hs, hcl]
  | listener s =>
    by_cases hcl : s.state = .closed
    · cases htuple : s.tuple <;>
        simp [harvest, convert, reap, socket, hs, hcl, htuple]
    by_cases hhalf : s.state = .listen ∨ s.state = .synReceived
    · simp [harvest, convert, reap, socket, hs, hcl, hhalf]
    have htuple : s.tuple = true := by
      by_contra htuple
      obtain hlis | hcl' := (h.listener s hs).2.2.2 (Bool.eq_false_iff.mpr htuple)
      · exact hhalf (.inl hlis)
      · exact hcl hcl'
    simp [harvest, convert, reap, socket, hs, hcl, hhalf, htuple]

/-- A poll that finds the socket CLOSED finds its receive buffer empty. -/
def Emptied (t : Terminator) (op : Op) : Prop :=
  ∀ refused again s, op = .drive refused → t.phase = .polling again → t.entry.socket = some s → s.state = .closed →
    s.rx = []

omit [Smoltcp] in
theorem emptied_iff (h : Sound t) : t.Emptied op ↔ t.discards op = [] := by
  constructor
  · intro hemptied
    unfold discards
    split
    · rename_i refused
      split
      · rename_i again hphase
        unfold Entry.lost
        split_ifs with hrem
        · obtain hrem | ⟨s, hs, hcl⟩ := (removed_iff h).mp hrem
          · exact rx_of_removed hrem
          · simp [Entry.rx, hs, hemptied refused again s rfl hphase hs hcl]
        · rfl
      · rfl
    · rfl
  · intro hdisc refused again s hop hphase hs hcl
    subst hop
    simp only [discards, hphase, Entry.lost, (removed_iff h).mpr (.inr ⟨s, hs, hcl⟩), Entry.rx,
      hs] at hdisc
    exact hdisc

theorem removed_step (h : t.entry.standing = .removed) (op : Op) : (t.step op).entry.standing = .removed := by
  cases op with
  | drive refused =>
    unfold step drive
    cases hphase : t.phase with
    | polling again => rwa [Entry.harvest_removed h]
    | accepting =>
      dsimp only [accept]
      split_ifs
      · rwa [Entry.abort_removed h]
      · exact h
      · exact h
    | receiving =>
      dsimp only
      split
      · rw [receive, Entry.recv_removed h]
        split_ifs <;> exact h
      · exact h
    | sending =>
      dsimp only
      split
      · rw [send, Entry.close_removed h]
        split
        · split_ifs <;> exact h
        · rw [Entry.send_removed h]
          exact h
      · exact h
    | ending =>
      dsimp only [finish]
      split
      · exact h
      · split_ifs <;> exact h
    | _ => exact h
  | event event =>
    unfold step onEvent
    dsimp only
    split
    · rwa [Entry.onEvent_removed h]
    · exact h
  | _ => exact h

theorem gains_of_removed (h : t.entry.standing = .removed) : t.gains op = [] := by
  have hsock : t.entry.socket = none := by simp [socket, h]
  unfold gains
  split
  · simp [hsock]
  · rfl

omit [Smoltcp] in
theorem discards_of_removed (h : t.entry.standing = .removed) : t.discards op = [] := by
  have hrx := rx_of_removed h
  unfold discards
  split
  · split
    · unfold Entry.lost
      rw [hrx, ite_self]
    · rfl
  · rfl

theorem removed_of_discards (h : t.discards op ≠ []) : (t.step op).entry.standing = .removed := by
  unfold discards at h
  split at h
  · split at h
    · rename_i refused again hphase
      unfold Entry.lost at h
      split_ifs at h with hrem
      · simp only [step, drive, hphase]
        exact hrem
      · exact absurd rfl h
    · exact absurd rfl h
  · exact absurd rfl h

end Terminator

namespace Ledger

open Terminator

/-! ### Whole runs -/

section Runs

variable [Smoltcp]

/-- What a run keeps: the bytes that the stack took are those that the task has read, those on their way, and those
that were thrown away. -/
structure Accounts (l : Ledger) (lost : Bytes) : Prop where
  sound : Sound l.terminator
  drained : Drained l.terminator
  accepted : l.accepted = l.delivered ++ l.terminator.unread ++ l.terminator.entry.rx ++ lost
  removed : lost ≠ [] → l.terminator.entry.standing = .removed

omit [Smoltcp] in
theorem accounts_opened (cap : ℕ) : (opened cap).Accounts [] where
  sound := sound_listening cap
  drained := fun _ hb => (nomatch hb)
  accepted := rfl
  removed := fun h => absurd rfl h

theorem Accounts.step {l : Ledger} (h : l.Accounts lost) (op : Op) :
    (l.step op).Accounts (lost ++ l.terminator.discards op) := by
  have hbal := balanced_step h.sound op
  have hacc := h.accepted
  unfold Terminator.Balanced at hbal
  refine ⟨h.sound.step op, drained_step h.sound h.drained op, ?_, ?_⟩
  · show l.accepted ++ _ = (l.delivered ++ _) ++ (l.terminator.step op).unread ++ (l.terminator.step op).entry.rx ++ _
    by_cases hlost : lost = []
    · subst hlost
      simp only [append_nil, append_assoc, nil_append] at hacc hbal ⊢
      rw [hacc, append_assoc, append_assoc, hbal]
    -- The socket is gone: only the task moves bytes.
    have hrem := h.removed hlost
    rw [rx_of_removed hrem, gains_of_removed hrem, discards_of_removed hrem,
      rx_of_removed (removed_step hrem op)] at hbal
    rw [rx_of_removed hrem] at hacc
    simp only [append_nil] at hacc hbal
    rw [gains_of_removed hrem, discards_of_removed hrem, rx_of_removed (removed_step hrem op),
      hacc, hbal]
    simp
  · intro hne
    by_cases hdisc : l.terminator.discards op = []
    · rw [hdisc, append_nil] at hne
      exact removed_step (h.removed hne) op
    · exact removed_of_discards hdisc

theorem accounts_run (cap : ℕ) (ops : List Op) : ∃ lost, (run step (opened cap) ops).Accounts lost ∧
      (lost = [] ↔ Along step (fun l op => l.terminator.Emptied op) (opened cap) ops) := by
  refine run_history (G := fun _ _ => True) (I := fun es (l : Ledger) => ∃ lost, l.Accounts lost ∧
      (lost = [] ↔ Along step (fun l op => l.terminator.Emptied op) (opened cap) es)) ?_ ?_ ops
      (along_of_mem ops _ fun _ _ _ => trivial)
  · exact ⟨[], accounts_opened cap, by simp [Along]⟩
  · rintro es op ⟨lost, haccs, hiff⟩ -
    refine ⟨_, haccs.step op, ?_⟩
    rw [append_eq_nil_iff, hiff, along_snoc, emptied_iff haccs.sound]

/-- **The task has read the front of what the stack took**, in every state of every connection. -/
theorem delivered_front (cap : ℕ) (ops : List Op) :
    (run step (opened cap) ops).delivered <+: (run step (opened cap) ops).accepted := by
  obtain ⟨lost, haccs, -⟩ := accounts_run cap ops
  rw [haccs.accepted, append_assoc, append_assoc]
  exact prefix_append _ _

omit [Smoltcp] in
theorem Accounts.ended {l : Ledger} (h : l.Accounts lost)
    (hend : l.terminator.readResult room = some .endOfStream) : l.accepted = l.delivered ++ lost := by
  unfold readResult at hend
  rcases hb : l.terminator.bridge with _ | b
  · simp [hb] at hend
  simp only [hb] at hend
  split_ifs at hend
  have hres : (b.pollRead room).2 = .endOfStream := Option.some.inj hend
  have hunr : b.unread = [] := by
    by_contra hunr
    obtain ⟨bytes, hdata⟩ := Bridge.pollRead_of_unread hunr room
    rw [hdata] at hres
    cases hres
  have htoTask : b.toTask = false := by
    rw [Bridge.pollRead_of_drained hunr] at hres
    split_ifs at hres with htoTask
    exact Bool.eq_false_iff.mpr htoTask
  have hunr' : l.terminator.unread = [] := by simp [unread, hb, hunr]
  rw [h.accepted, hunr', (h.drained b hb htoTask).rx]
  simp

/-- **A task that reads the end of its stream has read every byte that the stack took, exactly when the socket's
receive buffer was empty as it was removed.** -/
theorem delivered_iff (capacity : ℕ) (ops : List Op) (room : ℕ)
    (hend : (run step (opened capacity) ops).terminator.readResult room = some .endOfStream) :
    (run step (opened capacity) ops).delivered = (run step (opened capacity) ops).accepted ↔
      Along step (fun l op => l.terminator.Emptied op) (opened capacity) ops := by
  obtain ⟨lost, haccs, hiff⟩ := accounts_run capacity ops
  rw [← hiff, haccs.ended hend]
  constructor
  · intro h
    exact append_cancel_left ((append_nil _).trans h).symm
  · intro h
    rw [h, append_nil]

end Runs

/-- The task closes its half after it has read the client's only byte. -/
def orderly : List Op :=
  handshake ++ pass [.data [7], .fin] 8 ++ [.read 16, .shutdown] ++ pass [] 7 ++ pass [.ackOfFin] 8

theorem delivered_orderly : (run step (opened 64) orderly).terminator.readResult 16 = some .endOfStream ∧
      Along step (fun l op => l.terminator.Emptied op) (opened 64) orderly := by
  have hend : (run step (opened 64) orderly).terminator.readResult 16 = some .endOfStream := by decide
  exact ⟨hend, (delivered_iff 64 orderly 16 hend).mp (by decide)⟩

/-- Eight segments fill the task's channel; then come the client's last byte and its FIN, and the task closes its half
before it reads. -/
def behindFullChannel : List Op :=
  handshake ++ ((List.range 8).flatMap fun i => pass [.data [UInt8.ofNat i]] 8) ++ pass [.data [8], .fin] 7 ++
    [.shutdown] ++ pass [] 7 ++ pass [.ackOfFin] 8 ++ List.replicate 8 (.read 16)

/-- **Both sides close in order, and the task reads the end of the stream without the last byte that the stack took.** -/
theorem lost_behind_full_channel :
    (∀ op ∈ behindFullChannel, op ≠ .event .rst ∧ op ≠ .event .timeout ∧ op ≠ .drive true) ∧
      (run step (opened 64) behindFullChannel).terminator.readResult 16 = some .endOfStream ∧
      (run step (opened 64) behindFullChannel).accepted = [0, 1, 2, 3, 4, 5, 6, 7, 8] ∧
      (run step (opened 64) behindFullChannel).delivered = [0, 1, 2, 3, 4, 5, 6, 7] := by
  decide +kernel

end Ledger

end Boreas.L4
