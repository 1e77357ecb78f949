import Boreas.Table
import Boreas.Wire

/-! # A TCP socket of smoltcp

What l4/stream.rs sees of a socket: its state, its two buffers, and how the client's segments, the timers and the
stack's own calls change them.  `Smoltcp` is that library as this development uses it, with its assumptions as fields:
a socket keeps the bytes that it received until they are read, in whatever state it is (`rx_process`), and takes no
more of them once the client's FIN has come (`finished_process`).  The state machine of `Socket.process` meets them. -/

namespace Boreas.L4

inductive State
  | listen
  | synSent
  | synReceived
  | established
  | finWait1
  | finWait2
  | closeWait
  | closing
  | lastAck
  | timeWait
  | closed
deriving DecidableEq, Repr

/-- What the interface's poll can have in store for a socket: parts of the client's segments, and its own timers. -/
inductive Event
  | syn
  /-- The acknowledgement that completes the handshake. -/
  | ack
  | data (payload : Bytes)
  | fin
  | acked (count : ℕ)
  | ackOfFin
  | rst
  /-- The client has said nothing for too long. -/
  | timeout
  | timeWaitOver
deriving DecidableEq

def Event.completes : Event → Bool
  | .ack | .fin => true
  | _ => false

namespace State

def receives : State → Bool
  | .established | .finWait1 | .finWait2 => true
  | _ => false

def handshaking : State → Bool
  | .listen | .synSent | .synReceived => true
  | _ => false

def finished (s : State) : Prop := s.receives = false ∧ s.handshaking = false

instance (s : State) : Decidable s.finished := inferInstanceAs (Decidable (_ ∧ _))

/-- Still a listener's: LISTEN or SYN-RECEIVED. -/
def waits : State → Bool
  | .listen | .synReceived => true
  | _ => false

end State

structure Socket where
  state : State
  /-- Whether the socket knows its two endpoints. -/
  tuple : Bool
  /-- Whether the client's FIN has come. -/
  rxFin : Bool
  /-- The size of each buffer. -/
  capacity : ℕ
  /-- Bytes received and not yet read. -/
  rx : Bytes
  /-- Bytes written and not yet acknowledged. -/
  tx : Bytes
deriving DecidableEq

inductive RecvError
  | finished
  | invalidState

namespace Socket

def listening (capacity : ℕ) : Socket := ⟨.listen, false, false, capacity, [], []⟩

variable (s : Socket)

def mayRecv : Bool := s.state.receives || !s.rx.isEmpty

def canRecv : Bool := s.mayRecv && !s.rx.isEmpty

def maySend : Bool := s.state = .established || s.state = .closeWait

def Unnamed : Prop := s.tuple = false → s.state = .listen ∨ s.state = .closed

end Socket

/-- What the interface's poll makes of a socket, what a call on it does, and the slot that a new socket takes. -/
class Smoltcp where
  process : Socket → Event → Socket
  recvSlice : Socket → ℕ → Except RecvError (Bytes × Socket)
  sendSlice : Socket → Bytes → Option (ℕ × Socket)
  close : Socket → Socket
  abort : Socket → Socket
  vacant {α : Type} : Table ℕ α → ℕ
  rx_process (s : Socket) (e : Event) : s.rx <+: (process s e).rx
  finished_process {s : Socket} (h : s.state.finished) (e : Event) :
    (process s e).rx = s.rx ∧ (process s e).state.finished
  /-- A socket is past its handshake for good. -/
  waits_process {s : Socket} (h : s.state.waits = false) (e : Event) : (process s e).state.waits = false
  /-- Only an acknowledgement of the SYN-ACK completes a handshake. -/
  waits_of_not_completes {s : Socket} (h : s.state.waits = true) {e : Event} (he : e.completes = false) :
    (process s e).state.waits = true ∨ (process s e).state = .closed
  closed_process {s : Socket} (h : s.state = .closed) (e : Event) :
    (process s e).state = .closed ∧ (s.tuple = false → (process s e).tuple = false)
  unnamed_process {s : Socket} (h : s.Unnamed) (e : Event) : (process s e).Unnamed
  process_rst {s : Socket} (h : s.state.handshaking = false) :
    (process s .rst).state = .closed ∧ (process s .rst).tuple = false
  recvSlice_of_canRecv {s : Socket} (h : s.canRecv = true) (count : ℕ) : ∃ r, recvSlice s count = .ok r
  recvSlice_ok {s s' : Socket} {count : ℕ} {bytes : Bytes} (h : recvSlice s count = .ok (bytes, s')) :
    bytes ++ s'.rx = s.rx ∧ s'.state = s.state
  sendSlice_some {s s' : Socket} {bytes : Bytes} {count : ℕ} (h : sendSlice s bytes = some (count, s')) :
    s'.rx = s.rx ∧ s'.state = s.state
  rx_close (s : Socket) : (close s).rx = s.rx
  waits_close (s : Socket) : (close s).state.waits = false
  finished_close {s : Socket} (h : s.state.finished) : (close s).state.finished
  rx_abort (s : Socket) : (abort s).rx = s.rx
  state_abort (s : Socket) : (abort s).state = .closed
  lookup_vacant {α : Type} (t : Table ℕ α) : t.lookup (vacant t) = none

namespace Smoltcp

variable [Smoltcp] (s : Socket)

def gained (e : Event) : Bytes := (process s e).rx.drop s.rx.length

/-- **No event takes received bytes away.** -/
theorem rx_eq (e : Event) : (process s e).rx = s.rx ++ gained s e :=
  List.prefix_append_drop (rx_process s e)

end Smoltcp

/-! ### The state machine -/

namespace State

def takesFin : State → Bool
  | .synReceived | .established | .finWait1 | .finWait2 => true
  | _ => false

/-- Our FIN goes out after the last byte, and so does its acknowledgement come after theirs (`drained`); whether the
receive buffer is empty plays no part. -/
def next (drained : Bool) : State → Event → State
  | .listen, .syn => .synReceived
  | .synReceived, .ack => .established
  | .synReceived, .fin | .established, .fin => .closeWait
  | .finWait1, .fin => .closing
  | .finWait2, .fin => .timeWait
  | .finWait1, .ackOfFin => if drained then .finWait2 else .finWait1
  | .closing, .ackOfFin => if drained then .timeWait else .closing
  | .lastAck, .ackOfFin => if drained then .closed else .lastAck
  | .listen, .rst | .synReceived, .rst => .listen
  | _, .rst => .closed
  | .listen, .timeout => .listen
  | .timeWait, .timeout => .timeWait
  | _, .timeout => .closed
  | .timeWait, .timeWaitOver => .closed
  | s, _ => s

def onClose : State → State
  | .listen | .synSent => .closed
  | .synReceived | .established => .finWait1
  | .closeWait => .lastAck
  | s => s

variable {s : State} {drained : Bool}

theorem finished_next (h : s.finished) (e : Event) : (s.next drained e).finished := by
  cases drained <;> cases e <;> cases s <;> first | exact h | decide | exact absurd h (by decide)

theorem waits_next (h : s.waits = false) (e : Event) : (s.next drained e).waits = false := by
  cases drained <;> cases e <;> cases s <;> first | rfl | cases h

theorem waits_next_of_not_completes (h : s.waits = true) {e : Event} (he : e.completes = false) :
    (s.next drained e).waits = true ∨ s.next drained e = .closed := by
  cases s <;> cases h <;> cases e <;> first | exact .inl rfl | exact .inr rfl | cases he

theorem next_closed (e : Event) : State.closed.next drained e = .closed := by
  cases e <;> rfl

theorem next_rst (h : s.handshaking = false) : s.next drained .rst = .closed := by
  cases s <;> first | rfl | cases h

theorem finished_onClose (h : s.finished) : s.onClose.finished := by
  revert h
  cases s <;> decide

theorem waits_onClose (s : State) : s.onClose.waits = false := by
  cases s <;> rfl

end State

namespace Socket

variable (s : Socket)

def accepts (payload : Bytes) : Bytes :=
  if s.state.receives then payload.take (s.capacity - s.rx.length) else []

def process (e : Event) : Socket :=
  { s with
    state := s.state.next s.tx.isEmpty e
    tuple := match e with
      | .syn => s.tuple || s.state = .listen
      | .rst => false
      | _ => s.tuple
    rxFin := s.rxFin || e = .fin && s.state.takesFin
    rx := match e with
      | .data payload => s.rx ++ s.accepts payload
      | _ => s.rx
    tx := match e with
      | .acked count => s.tx.drop count
      | _ => s.tx }

def recvSlice (count : ℕ) : Except RecvError (Bytes × Socket) :=
  if s.mayRecv then .ok (s.rx.take count, { s with rx := s.rx.drop count })
  else if s.rxFin then .error .finished
  else .error .invalidState

def sendSlice (bytes : Bytes) : Option (ℕ × Socket) :=
  if s.maySend then
    some (min bytes.length (s.capacity - s.tx.length),
      { s with tx := s.tx ++ bytes.take (s.capacity - s.tx.length) })
  else none

def close : Socket := { s with state := s.state.onClose }

def abort : Socket := { s with state := .closed }

variable {s : Socket}

theorem rx_finished (h : s.state.finished) (e : Event) : (s.process e).rx = s.rx := by
  cases e with
  | data payload => simp [process, accepts, h.1]
  | _ => rfl

theorem unnamed_process (h : s.Unnamed) (e : Event) : (s.process e).Unnamed := by
  obtain ⟨state, tuple, rxFin, capacity, rx, tx⟩ := s
  intro htuple
  cases e with
  | rst => cases state <;> first | exact .inl rfl | exact .inr rfl
  | syn =>
    obtain ⟨rfl, hstate⟩ : tuple = false ∧ state ≠ .listen := by simpa [process] using htuple
    obtain rfl | rfl : state = .listen ∨ state = .closed := h rfl
    · exact absurd rfl hstate
    · exact .inr rfl
  | _ =>
    obtain rfl | rfl : state = .listen ∨ state = .closed := h htuple
    · exact .inl rfl
    · exact .inr rfl

theorem recvSlice_ok (h : s.recvSlice count = .ok (bytes, s')) :
    bytes ++ s'.rx = s.rx ∧ s'.state = s.state := by
  unfold recvSlice at h
  split_ifs at h
  cases h
  exact ⟨List.take_append_drop count s.rx, rfl⟩

theorem sendSlice_some {s s' : Socket} (h : s.sendSlice bytes = some (count, s')) :
    s'.rx = s.rx ∧ s'.state = s.state := by
  unfold sendSlice at h
  split_ifs at h
  cases h
  exact ⟨rfl, rfl⟩

end Socket

instance : Smoltcp where
  process := Socket.process
  recvSlice := Socket.recvSlice
  sendSlice := Socket.sendSlice
  close := Socket.close
  abort := Socket.abort
  vacant := Table.firstFree
  rx_process s e := by
    cases e with
    | data payload => exact List.prefix_append _ _
    | _ => exact List.prefix_rfl
  finished_process h e := ⟨Socket.rx_finished h e, State.finished_next h e⟩
  waits_process := State.waits_next
  waits_of_not_completes := State.waits_next_of_not_completes
  closed_process {s} h e := by
    refine ⟨?_, fun htuple => ?_⟩
    · exact (congrArg (State.next _ · e) h).trans (State.next_closed e)
    · cases e <;> simp [Socket.process, h, htuple]
  unnamed_process := Socket.unnamed_process
  process_rst h := ⟨State.next_rst h, rfl⟩
  recvSlice_of_canRecv h count := ⟨_, if_pos (Bool.and_eq_true_iff.mp h).1⟩
  recvSlice_ok := Socket.recvSlice_ok
  sendSlice_some := Socket.sendSlice_some
  rx_close _ := rfl
  waits_close s := State.waits_onClose s.state
  finished_close := State.finished_onClose
  rx_abort _ := rfl
  state_abort _ := rfl
  lookup_vacant := Table.lookup_firstFree

end Boreas.L4
