import Boreas.Harvest

/-! # Handles and the streams behind them

`run_terminator` (l4/terminate.rs) over a stack with any number of sockets, whose handles come back.  `touched` lists,
for every turn of a pump, the opening that the handle stands for and the one that the stream belongs to; `cut` does so
for every stream that an end removes.  `Ledger` says whose every stream is; a poll keeps it (`Ledger.poll`), unless a
listener joins under a handle with an end still to be told. -/

namespace Boreas.L4

open List hiding cons drop next nil
open Option hiding none some
open Table
open Opened (onEvent)

structure Plumbed where
  serial : ℕ
  bridge : Bridge
deriving DecidableEq

inductive Turn
  | waiting
  | polling (again : Bool)
  | accepting
  | receiving (id : ℕ) (rest : List ℕ)
  | sending (id : ℕ) (rest : List ℕ)
  | transmitting
  | ending
deriving DecidableEq

structure Terminators where
  stack : LocalStack
  conns : Table ℕ Plumbed
  turn : Turn
  touched : List (ℕ × ℕ)
  cut : List (ℕ × ℕ)

namespace Terminators

inductive Op
  | push (packet : Bytes)
  /-- The `select!` is over. -/
  | wake
  | poll (events : ℕ → List Event)
  /-- One turn of the loop over `poll_accept`; the streams are then pumped in this order. -/
  | accept (refused : Bool) (order : List ℕ)
  | pump
  /-- The loop over `poll_transmit`, with the half-open sockets whose SYN-ACK leaves. -/
  | transmit (handles : List ℕ) (refused : Bool)
  /-- One turn of the loop over `poll_closed`. -/
  | finish
  | read (serial room : ℕ)
  | write (serial : ℕ) (bytes : Bytes)
  | shutdown (serial : ℕ)
  | drop (serial : ℕ)

def start (stack : LocalStack) : Terminators := ⟨stack, ∅, .waiting, [], []⟩

def next : List ℕ → Turn
  | [] => .polling true
  | id :: rest => .receiving id rest

variable [Smoltcp] (t : Terminators)

def accept (refused : Bool) (order : List ℕ) : Terminators :=
  match t.stack.accepted with
  | [] => { t with turn := next order }
  | terminated :: accepted =>
    if refused then { t with stack := { t.stack.abort terminated.id with accepted := accepted } }
    else
      { t with
        stack := { t.stack with accepted := accepted }
        conns := t.conns.insert terminated.id ⟨terminated.serial, .pair⟩ }

def meets (id : ℕ) (p : Plumbed) : List (ℕ × ℕ) :=
  if id ∈ t.stack.established then (t.stack.serialAt id).toList.map (·, p.serial) else []

def pumpTurn (id : ℕ) (rest : List ℕ) (phase : Phase) : Terminators :=
  match t.conns.lookup id with
  | none => { t with turn := next rest }
  | some p =>
    let one := (⟨t.stack.entry id, true, some p.bridge, phase⟩ : Terminator).drive false
    { t with
      stack := t.stack.put id one.entry
      conns := t.conns.insert id { p with bridge := one.bridge.getD p.bridge }
      turn :=
        match one.phase with
        | .receiving => .receiving id rest
        | .sending => .sending id rest
        | _ => next rest
      touched := t.touched ++ t.meets id p }

def finish : Terminators :=
  match t.stack.closed with
  | [] => { t with turn := .waiting }
  | ended :: closed =>
    let t := { t with stack := { t.stack with closed := closed } }
    match t.conns.lookup ended.id with
    | none => t
    | some p => { t with conns := t.conns.erase ended.id, cut := t.cut ++ [(ended.serial, p.serial)] }

def onStream (serial : ℕ) (call : Bridge → Bridge) : Terminators :=
  { t with
    conns := t.conns.retain fun _ p =>
      some (if p.serial = serial ∧ p.bridge.reading then { p with bridge := call p.bridge } else p) }

def step : Op → Terminators
  | .push packet => if t.turn = .waiting then { t with stack := t.stack.push packet } else t
  | .wake => if t.turn = .waiting then { t with turn := .polling false } else t
  | .poll events =>
    match t.turn with
    | .polling again =>
      { t with stack := t.stack.poll events, turn := if again then .transmitting else .accepting }
    | _ => t
  | .accept refused order => if t.turn = .accepting then t.accept refused order else t
  | .pump =>
    match t.turn with
    | .receiving id rest => t.pumpTurn id rest .receiving
    | .sending id rest => t.pumpTurn id rest .sending
    | _ => t
  -- the reactor is gone when it refuses a segment: the pass ends here
  | .transmit handles refused =>
    if t.turn = .transmitting then
      { t with stack := t.stack.transmit handles, turn := if refused then .waiting else .ending }
    else t
  | .finish => if t.turn = .ending then t.finish else t
  | .read serial room => t.onStream serial fun b => (b.pollRead room).1
  | .write serial bytes => t.onStream serial fun b => (b.pollWrite bytes).1
  | .shutdown serial => t.onStream serial Bridge.pollShutdown
  | .drop serial => t.onStream serial Bridge.dropStream

end Terminators

/-! ### What a call leaves alone -/

namespace LocalStack

variable (s : LocalStack)

theorem serialAt_put (id : ℕ) (e : Entry) (handle : ℕ) : (s.put id e).serialAt handle = s.serialAt handle ∧
    (s.put id e).answeredAt handle = s.answeredAt handle := by
  unfold put
  split
  · rename_i socket o hs ho
    unfold serialAt answeredAt
    rw [lookup_insert_eq]
    split_ifs with heq
    · rw [heq, ho]
      exact ⟨rfl, rfl⟩
    · exact ⟨rfl, rfl⟩
  · exact ⟨rfl, rfl⟩

theorem keeps_put (id : ℕ) (e : Entry) : Keeps s (s.put id e) := by
  have hsame : (s.put id e).established = s.established ∧ (s.put id e).accepted = s.accepted ∧
      (s.put id e).closed = s.closed := by
    unfold put
    split <;> exact ⟨rfl, rfl, rfl⟩
  exact ⟨hsame.1, hsame.2.1, hsame.2.2,
    fun ⟨hin, hser⟩ => ⟨hsame.1 ▸ hin, (s.serialAt_put id e _).1.trans hser⟩⟩

theorem keeps_transmit (handles : List ℕ) : Keeps s (s.transmit handles) := by
  refine ⟨rfl, rfl, rfl, fun {handle _} hlive => ⟨hlive.1, Eq.trans ?_ hlive.2⟩⟩
  unfold serialAt transmit
  rw [lookup_retain]
  cases s.sockets.lookup handle <;> rfl

variable [Smoltcp]

theorem answered_foldl (o : Opened) (events : List Event) :
    (events.foldl onEvent o).answered = o.answered ∧ (events.foldl onEvent o).serial = o.serial := by
  induction events generalizing o with
  | nil => exact ⟨rfl, rfl⟩
  | cons event events ih =>
    rw [foldl_cons, (ih _).1, (ih _).2]
    unfold onEvent
    split_ifs <;> exact ⟨rfl, rfl⟩

variable (events : ℕ → List Event)

theorem lookup_seen (handle : ℕ) : (s.seen events).sockets.lookup handle =
      (s.sockets.lookup handle).map fun o => (events handle).foldl onEvent o := by
  unfold seen iface
  rw [lookup_retain]
  cases s.sockets.lookup handle <;> rfl

theorem serialAt_seen (handle : ℕ) : (s.seen events).serialAt handle = s.serialAt handle ∧
    (s.seen events).answeredAt handle = s.answeredAt handle := by
  unfold serialAt answeredAt
  rw [lookup_seen]
  cases s.sockets.lookup handle with
  | none => exact ⟨rfl, rfl⟩
  | some o =>
    obtain ⟨hanswered, hserial⟩ := answered_foldl o (events handle)
    exact ⟨congrArg some hserial, hanswered⟩

theorem unanswered_foldl (hans : o.answered = false) (events : List Event)
    (h : o.socket.state.waits = true ∨ o.socket.state = .closed) :
    (events.foldl onEvent o).socket.state.waits = true ∨ (events.foldl onEvent o).socket.state = .closed := by
  induction events generalizing o with
  | nil => exact h
  | cons event events ih =>
    refine ih ((answered_foldl o [event]).1.trans hans) ?_
    unfold onEvent
    split_ifs with hskip
    · exact h
    obtain hwaits | hcl := h
    · exact Smoltcp.waits_of_not_completes hwaits (by simpa [hans] using hskip)
    · exact .inr (Smoltcp.closed_process hcl event).1

/-! ### What a poll does to the handles -/

theorem grown_poll : Grown (s.seen events).harvest (s.poll events) := grown_replenish _ _

section Poll

variable {s : LocalStack} (h : Books [] s) (events : ℕ → List Event)
include h

theorem serialAt_poll {id : ℕ} (hid : id ∈ (s.poll events).established) :
    (s.poll events).serialAt id = s.serialAt id := by
  have hin : id ∈ (s.seen events).harvest.established := (s.grown_poll events).established ▸ hid
  obtain ⟨o, ho⟩ := isSome_iff_exists.mp
    (((h.seen events).harvest.exists_iff id).mpr (mem_append_right _ hin))
  have hold := (harvests_harvest (h.seen events)).lookup id o ho
  rw [← (s.serialAt_seen events id).1, serialAt, serialAt, (s.grown_poll events).old id o ho, hold]

theorem mem_established_poll (id : ℕ) : id ∈ (s.poll events).established ↔
    (id ∈ s.established ∨ id ∈ (s.seen events).joined) ∧ (s.seen events).stateOf id ≠ some .closed := by
  rw [(s.grown_poll events).established]
  exact (harvests_harvest (h.seen events)).established id

theorem accepted_poll : (s.poll events).accepted = s.accepted ++ (s.seen events).joined.map (s.seen events).terminated := by
  rw [(s.grown_poll events).accepted]
  exact (harvests_harvest (h.seen events)).accepted

theorem closed_poll : (s.poll events).closed.map Ended.whose =
    s.closed.map Ended.whose ++ (s.seen events).reaped.map (s.seen events).openingOf := by
  rw [(s.grown_poll events).closed]
  exact (harvests_harvest (h.seen events)).closed

theorem closed_poll_id : (s.poll events).closed.map Ended.id = s.closed.map Ended.id ++ (s.seen events).reaped := by
  have hmap := congrArg (List.map Prod.fst) (closed_poll h events)
  rw [List.map_append, List.map_map, List.map_map, List.map_map,
    show (Prod.fst ∘ (s.seen events).openingOf) = id from rfl, List.map_id] at hmap
  exact hmap

omit h in
theorem mem_reaped (id : ℕ) : id ∈ (s.seen events).reaped ↔
    (id ∈ s.established ∨ id ∈ (s.seen events).joined) ∧ (s.seen events).stateOf id = some .closed := by
  unfold reaped
  rw [mem_filter, mem_append, decide_eq_true_iff]
  rfl

theorem live_poll {id : ℕ} (hin : id ∈ s.established ∨ id ∈ (s.seen events).joined)
    (hser : s.serialAt id = some serial) :
    (s.poll events).Live id serial ∨ (id, serial) ∈ (s.poll events).closed.map Ended.whose := by
  by_cases hcl : (s.seen events).stateOf id = some .closed
  · right
    rw [closed_poll h events]
    refine mem_append_right _ (mem_map.mpr ⟨id, (mem_reaped events id).mpr ⟨hin, hcl⟩, ?_⟩)
    unfold openingOf
    rw [(s.serialAt_seen events id).1, hser]
    rfl
  · left
    have hid := (mem_established_poll h events id).mpr ⟨hin, hcl⟩
    exact ⟨hid, (serialAt_poll h events hid).trans hser⟩

theorem joined_spec {id : ℕ} (hid : id ∈ (s.seen events).joined) :
    id ∉ s.established ∧ (∃ l ∈ s.listeners, l.handle = id ∧ (s.seen events).stays l = false) ∧
      (s.seen events).tupled id = true := by
  obtain ⟨hconv, htup⟩ := mem_filter.mp hid
  refine ⟨(h.seen events).converted_notMem hconv, ?_, htup⟩
  obtain ⟨l, hl, rfl⟩ := mem_map.mp hconv
  obtain ⟨hmem, hstays⟩ := mem_filter.mp hl
  exact ⟨l, hmem, rfl, by simpa using hstays⟩

theorem unanswered_poll {id : ℕ} (hid : id ∈ (s.seen events).reaped ∨ s.answeredAt id = false) :
    (s.poll events).answeredAt id = false := by
  have hharv := harvests_harvest (h.seen events)
  unfold answeredAt
  rcases ho : (s.poll events).sockets.lookup id with _ | o
  · rfl
  obtain hold | ⟨-, hnew⟩ := (s.grown_poll events).new id o ho
  · obtain hreaped | hpre := hid
    · rw [hharv.gone id hreaped] at hold
      cases hold
    have hseen := hharv.lookup id o hold
    rw [← (s.serialAt_seen events id).2, answeredAt, hseen] at hpre
    exact hpre
  · exact hnew

end Poll

variable {s : LocalStack}

omit [Smoltcp] in
theorem stays_harvest (h : Books [] s) : s.harvest.AllStay := by
  have hconv := frame_foldl frame_convert s.converted { s with listeners := s.listeners.filter s.stays }
  have hreap := frame_foldl frame_reap s.convertAll.finished s.convertAll
  intro l hl
  have hl' : l ∈ s.listeners.filter s.stays := by
    rw [show s.harvest.listeners = s.listeners.filter s.stays from hreap.listeners.trans hconv.listeners] at hl
    exact hl
  have hlook : s.harvest.sockets.lookup l.handle = s.sockets.lookup l.handle := by
    refine (hreap.others l.handle fun hin => ?_).trans (hconv.others l.handle fun hin => ?_)
    · have hmem : l ∈ s.convertAll.listeners := hconv.listeners ▸ hl'
      exact h.convertAll.handle_notMem hmem (mem_of_mem_filter hin)
    · exact h.split.handle_notMem hl' (mem_append_left _ hin)
  have hstays : s.stays l = true := of_mem_filter hl'
  unfold stays stateOf
  rw [hlook]
  exact hstays

theorem stays_poll (h : Books [] s) (events : ℕ → List Event) : (s.poll events).AllStay :=
  (s.grown_poll events).stays (stays_harvest (h.seen events))

omit [Smoltcp] in
theorem AllStay.of_states {s' : LocalStack} (h : s.AllStay)
    (hsame : ∀ l ∈ s'.listeners, l ∈ s.listeners ∧ s'.stateOf l.handle = s.stateOf l.handle) : s'.AllStay := by
  intro l hl
  rw [stays, (hsame l hl).2]
  exact h l (hsame l hl).1

end LocalStack

/-! ### The ledger -/

namespace Terminators

open LocalStack

/-- Every stream, handed out or still to be, belongs to the connection under its handle, or to one whose end is still
to be told; and what has met so far belongs together. -/
structure Ledger (t : Terminators) : Prop where
  books : Books [] t.stack
  waiting : t.stack.AllStay
  accepted : ∀ a ∈ t.stack.accepted,
    t.stack.Live a.id a.serial ∨ (a.id, a.serial) ∈ t.stack.closed.map Ended.whose
  conns : ∀ id p, t.conns.lookup id = some p →
    t.stack.Live id p.serial ∨ (id, p.serial) ∈ t.stack.closed.map Ended.whose
  unique : (t.stack.closed.map Ended.id).Nodup
  gone : ∀ e ∈ t.stack.closed, e.id ∉ t.stack.established
  fresh : ∀ a ∈ t.stack.accepted, t.conns.lookup a.id = none
  distinct : (t.stack.accepted.map Terminated.id).Nodup
  touched : ∀ m ∈ t.touched, m.1 = m.2
  cut : ∀ m ∈ t.cut, m.1 = m.2

def Unanswered (s : LocalStack) : Prop := ∀ e ∈ s.closed, s.answeredAt e.id = false

def AllLive (s : LocalStack) : Prop := ∀ a ∈ s.accepted, s.Live a.id a.serial

/-- What is settled at each point of a pass: no end is left over from the pass before, the connections found by the
first poll are published before the second, and those found by the second are alive. -/
def Settled (s : LocalStack) : Turn → Prop
  | .waiting | .polling false => s.closed = []
  | .accepting => Unanswered s
  | .receiving _ _ | .sending _ _ | .polling true => s.accepted = [] ∧ Unanswered s
  | .transmitting | .ending => AllLive s

section Ledger

variable {t : Terminators}

theorem mem_ids {s : LocalStack} {id : ℕ} (h : (id, serial) ∈ s.closed.map Ended.whose) :
    ∃ e ∈ s.closed, e.id = id ∧ e.serial = serial := by
  obtain ⟨e, he, hwhose⟩ := mem_map.mp h
  cases hwhose
  exact ⟨e, he, rfl, rfl⟩

theorem Ledger.ended_unique (h : Ledger t) (he : e ∈ t.stack.closed) (he' : e' ∈ t.stack.closed)
    (hid : e.id = e'.id) : e = e' := inj_on_of_nodup_map h.unique he he' hid

theorem Ledger.keeps (h : Ledger t) (hkeeps : Keeps t.stack s) (hbooks : Books [] s) (hstays : s.AllStay) :
    Ledger { t with stack := s } where
  books := hbooks
  waiting := hstays
  accepted := fun a ha => by
    rw [hkeeps.closed]
    exact (h.accepted a (hkeeps.accepted ▸ ha)).imp_left hkeeps.live
  conns := fun id p hp => by
    rw [hkeeps.closed]
    exact (h.conns id p hp).imp_left hkeeps.live
  unique := hkeeps.closed ▸ h.unique
  gone := hkeeps.closed ▸ hkeeps.established ▸ h.gone
  fresh := hkeeps.accepted ▸ h.fresh
  distinct := hkeeps.accepted ▸ h.distinct
  touched := h.touched
  cut := h.cut

theorem Ledger.poll [Smoltcp] (h : Ledger t) (events : ℕ → List Event)
    (hjoin : ∀ id ∈ (t.stack.seen events).joined, ∀ e ∈ t.stack.closed, e.id ≠ id) :
    Ledger { t with stack := t.stack.poll events } where
  books := h.books.poll events
  waiting := stays_poll h.books events
  accepted := fun a ha => by
    rw [accepted_poll h.books events] at ha
    obtain ha | ha := mem_append.mp ha
    · obtain ⟨hin, hser⟩ | hended := h.accepted a ha
      · exact live_poll h.books events (.inl hin) hser
      · right
        rw [closed_poll h.books events]
        exact mem_append_left _ hended
    · obtain ⟨id, hid, rfl⟩ := mem_map.mp ha
      obtain ⟨-, ⟨l, hl, rfl, -⟩, -⟩ := joined_spec h.books events hid
      obtain ⟨o, ho⟩ := isSome_iff_exists.mp ((h.books.exists_iff l.handle).mpr
        (mem_append_left _ (mem_append_left _ (mem_map_of_mem hl))))
      have hser : t.stack.serialAt l.handle = some o.serial := by
        unfold serialAt
        rw [ho]
        rfl
      have hterm : (t.stack.seen events).terminated l.handle = ⟨l.handle, o.serial⟩ := by
        unfold terminated
        rw [(t.stack.serialAt_seen events l.handle).1, hser]
        rfl
      rw [hterm]
      exact live_poll h.books events (.inr hid) hser
  conns := fun id p hp => by
    obtain ⟨hin, hser⟩ | hended := h.conns id p hp
    · exact live_poll h.books events (.inl hin) hser
    · right
      rw [closed_poll h.books events]
      exact mem_append_left _ hended
  unique := by
    rw [closed_poll_id h.books events, List.nodup_append]
    have hest := h.books.nodup_established
    refine ⟨h.unique, ?_, fun id hid id' hid' heq => ?_⟩
    · refine List.Nodup.filter _ (List.nodup_append.mpr ⟨hest, ?_, fun id hid id' hid' heq => ?_⟩)
      · exact (h.books.seen events).nodup_converted.filter _
      · exact (joined_spec h.books events hid').1 (heq ▸ hid)
    · obtain ⟨e, he, rfl⟩ := mem_map.mp hid
      obtain ⟨hin | hin, -⟩ := (mem_reaped events id').mp hid'
      · exact h.gone e he (heq ▸ hin)
      · exact hjoin id' hin e he heq
  gone := fun e he hin => by
    have hmem : e.id ∈ (t.stack.poll events).closed.map Ended.id := mem_map_of_mem he
    obtain ⟨hin, hopen⟩ := (mem_established_poll h.books events e.id).mp hin
    rw [closed_poll_id h.books events] at hmem
    obtain hmem | hmem := mem_append.mp hmem
    · obtain ⟨e', he', hid⟩ := mem_map.mp hmem
      obtain hin | hin := hin
      · exact h.gone e' he' (hid ▸ hin)
      · exact hjoin e.id hin e' he' hid
    · exact hopen ((mem_reaped events e.id).mp hmem).2
  fresh := fun a ha => by
    rw [accepted_poll h.books events] at ha
    obtain ha | ha := mem_append.mp ha
    · exact h.fresh a ha
    obtain ⟨id, hid, rfl⟩ := mem_map.mp ha
    show t.conns.lookup id = none
    rcases hp : t.conns.lookup id with _ | p
    · rfl
    obtain ⟨hin, -⟩ | hended := h.conns id p hp
    · exact absurd hin (joined_spec h.books events hid).1
    · obtain ⟨e, he, heq, -⟩ := mem_ids hended
      exact absurd heq (hjoin id hid e he)
  distinct := by
    rw [accepted_poll h.books events, List.map_append, List.map_map, List.nodup_append]
    refine ⟨h.distinct, ?_, fun id hid id' hid' heq => ?_⟩
    · rw [show Terminated.id ∘ (t.stack.seen events).terminated = id from rfl, List.map_id]
      exact (h.books.seen events).nodup_converted.filter _
    · obtain ⟨a, ha, rfl⟩ := mem_map.mp hid
      obtain ⟨joined, hjoined, rfl⟩ := mem_map.mp hid'
      have heq : a.id = joined := heq
      obtain ⟨hin, -⟩ | hended := h.accepted a ha
      · exact (joined_spec h.books events hjoined).1 (heq ▸ hin)
      · obtain ⟨e, he, hid, -⟩ := mem_ids hended
        exact hjoin joined hjoined e he (hid.trans heq)
  touched := h.touched
  cut := h.cut

theorem unanswered_after_poll [Smoltcp] (h : Ledger t) (events : ℕ → List Event) (hpre : Unanswered t.stack) :
    Unanswered (t.stack.poll events) := by
  intro e he
  have hmem : e.id ∈ (t.stack.poll events).closed.map Ended.id := mem_map_of_mem he
  rw [closed_poll_id h.books events] at hmem
  refine unanswered_poll h.books events ?_
  obtain hmem | hmem := mem_append.mp hmem
  · obtain ⟨e', he', hid⟩ := mem_map.mp hmem
    exact .inr (hid ▸ hpre e' he')
  · exact .inl hmem

theorem answered_of_joined [Smoltcp] (h : Ledger t) {id : ℕ} (hid : id ∈ (t.stack.seen events).joined)
    (hopen : ∀ l ∈ t.stack.listeners,
      ¬ ((t.stack.seen events).stateOf l.handle = some .closed ∧ (t.stack.seen events).tupled l.handle = true)) :
    t.stack.answeredAt id = true ∧ (t.stack.seen events).stateOf id ≠ some .closed := by
  obtain ⟨-, ⟨l, hl, rfl, hleft⟩, htup⟩ := joined_spec h.books events hid
  have hstate : (t.stack.seen events).stateOf l.handle ≠ some .closed := fun hcl => hopen l hl ⟨hcl, htup⟩
  refine ⟨?_, hstate⟩
  have hwaits := h.waiting l hl
  unfold stays stateOf at hwaits hleft
  unfold stateOf at hstate
  rw [lookup_seen] at hleft hstate
  unfold answeredAt
  rcases ho : t.stack.sockets.lookup l.handle with _ | o
  · rw [ho] at hwaits
    cases hwaits
  rw [ho] at hwaits hleft hstate
  by_contra hans
  rw [Bool.not_eq_true] at hans
  obtain hstill | hcl := unanswered_foldl hans (events l.handle) (.inl hwaits)
  · rw [map_some, map_some, any_some] at hleft
    rw [hstill] at hleft
    cases hleft
  · exact hstate (by rw [map_some, map_some, hcl])

theorem allLive_after_poll [Smoltcp] (h : Ledger { t with stack := t.stack.poll events }) (hbooks : Books [] t.stack)
    (hnone : t.stack.accepted = [])
    (hopen : ∀ id ∈ (t.stack.seen events).joined, (t.stack.seen events).stateOf id ≠ some .closed) :
    AllLive (t.stack.poll events) := by
  intro a ha
  obtain hlive | hended := h.accepted a ha
  · exact hlive
  obtain ⟨e, he, hid, -⟩ := mem_ids hended
  rw [accepted_poll hbooks events, hnone] at ha
  obtain ⟨id, hjoin, rfl⟩ := mem_map.mp ha
  refine absurd ?_ (h.gone e he)
  rw [hid]
  exact (mem_established_poll hbooks events id).mpr ⟨.inr hjoin, hopen id hjoin⟩

theorem Ledger.onStream (h : Ledger t) (serial : ℕ) (call : Bridge → Bridge) : Ledger (t.onStream serial call) := by
  refine { h with conns := fun id p hp => ?_, fresh := fun a ha => ?_ }
  · unfold Terminators.onStream at hp
    rw [lookup_retain, bind_eq_some_iff] at hp
    obtain ⟨p', hp', heq⟩ := hp
    have hser : p.serial = p'.serial := by
      rw [← Option.some.inj heq]
      split_ifs <;> rfl
    rw [hser]
    exact h.conns id p' hp'
  · unfold Terminators.onStream
    rw [lookup_retain, h.fresh a ha]
    rfl

theorem stays_put (h : Books [] s) (hstays : s.AllStay) {id : ℕ} (hserv : (s.entry id).Served e) :
    (s.put id e).AllStay := by
  obtain hmem | hsame := put_of_served hserv
  · have hframe := frame_put s id e
    refine AllStay.of_states hstays fun l hl => ?_
    rw [hframe.listeners] at hl
    have hlook := hframe.others l.handle fun hin => h.handle_notMem hl (mem_singleton.mp hin ▸ hmem)
    exact ⟨hl, congrArg (Option.map _) hlook⟩
  · rw [hsame]
    exact hstays

theorem Ledger.put (h : Ledger t) {id : ℕ} (hserv : (t.stack.entry id).Served e) :
    Ledger { t with stack := t.stack.put id e } :=
  h.keeps (keeps_put t.stack id e) (h.books.put hserv) (stays_put h.books h.waiting hserv)

end Ledger

end Terminators

/-! ### One turn of a pump -/

theorem Terminator.served_drive [Smoltcp] (e : Entry) (b : Bridge) {phase : Phase}
    (hphase : phase = .receiving ∨ phase = .sending) :
    e.Served ((⟨e, true, some b, phase⟩ : Terminator).drive false).entry := by
  obtain rfl | rfl := hphase
  · show e.Served (receive _ b).entry
    have hserv := Entry.served_recv e Bridge.chunk
    unfold receive
    by_cases hresv : b.reserves = true
    · rw [if_pos hresv]
      rcases hrecv : e.recv Bridge.chunk with ⟨e', result⟩
      rw [hrecv] at hserv
      rcases result with error | bytes
      · cases error <;> exact .refl e
      cases bytes with
      | nil => exact .refl e
      | cons byte bytes => exact hserv
    · rw [if_neg hresv]
      exact .refl e
  · show e.Served (send _ b).entry
    unfold send
    rcases nextOut b with _ | ⟨chunk, b'⟩
    · split_ifs
      · exact Entry.served_close e
      · exact .refl e
    have hserv := Entry.served_send e chunk
    dsimp only
    rcases hsend : e.send chunk with ⟨e', result⟩
    rw [hsend] at hserv
    rcases result with error | written
    · cases error <;> exact .refl e
    dsimp only
    split_ifs <;> exact hserv

end Boreas.L4
