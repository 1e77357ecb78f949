import Boreas.Bridge
import Boreas.Runs
import Boreas.TcpSocket

/-! # The local TCP terminator

`run_terminator` of l4/terminate.rs and the `LocalStack` of l4/stream.rs under it, with one of their connections.  A
service pass is cut into the steps between which the task that holds the stream can run (`Phase`); `Op` has the
terminator's next step, what the interface's poll finds for the socket, and the calls of the task, in any
order.  `Sound` is what every step keeps, and `Ledger` has beside the state what a run has carried. -/

namespace Boreas.L4

/-! ### The stack -/

variable [Smoltcp]

inductive StreamError
  | unknown
  | wouldBlock
  | closed
  | reset
deriving DecidableEq

def ended (state : State) : StreamError := if state = .closed then .reset else .closed

inductive Standing
  | listener (socket : Socket)
  | established (socket : Socket)
  | removed
deriving DecidableEq

structure Entry where
  standing : Standing
  /-- This side has closed or aborted the connection. -/
  closing : Bool
  /-- The connection waits for `poll_accept`. -/
  accepted : Bool
  /-- The ends that wait for `poll_closed`: whether the peer reset. -/
  closed : List Bool
deriving DecidableEq

namespace Entry

def socket (e : Entry) : Option Socket :=
  match e.standing with
  | .listener socket => some socket
  | .established socket => some socket
  | .removed => none

variable (e : Entry)

def recv (count : ℕ) : Entry × Except StreamError Bytes :=
  match e.standing with
  | .established socket =>
    if socket.canRecv then
      match Smoltcp.recvSlice socket count with
      | .ok (bytes, socket) => ({ e with standing := .established socket }, .ok bytes)
      | .error .finished => (e, .error .closed)
      | .error .invalidState => (e, .error .wouldBlock)
    else if socket.mayRecv || socket.state.handshaking then (e, .error .wouldBlock)
    else (e, .error (ended socket.state))
  | _ => (e, .error .unknown)

def send (bytes : Bytes) : Entry × Except StreamError ℕ :=
  match e.standing with
  | .established socket =>
    if socket.maySend = false then
      (e, .error (if socket.state.handshaking then .wouldBlock else ended socket.state))
    else
      match Smoltcp.sendSlice socket bytes with
      | some (0, _) => (e, .error .wouldBlock)
      | some (written, socket) => ({ e with standing := .established socket }, .ok written)
      | none => (e, .error .closed)
  | _ => (e, .error .unknown)

def close (e : Entry) : Entry :=
  match e.standing with
  | .established socket => { e with standing := .established (Smoltcp.close socket), closing := true }
  | _ => e

def abort (e : Entry) : Entry :=
  match e.standing with
  | .established socket => { e with standing := .established (Smoltcp.abort socket), closing := true }
  | _ => e

/-- The first half of `harvest`: a listener that is past its handshake is a connection, unless it closed before it
knew its endpoints. -/
def convert : Entry :=
  match e.standing with
  | .listener socket =>
    if socket.state = .listen ∨ socket.state = .synReceived then e
    else if socket.tuple then { e with standing := .established socket, accepted := true }
    else { e with standing := .removed }
  | _ => e

def reap : Entry :=
  match e.standing with
  | .established socket =>
    if socket.state = .closed then
      { e with standing := .removed, closing := false, closed := e.closed ++ [!e.closing] }
    else e
  | _ => e

def harvest : Entry := e.convert.reap

def onEvent (event : Event) : Entry :=
  match e.standing with
  | .listener socket => { e with standing := .listener (Smoltcp.process socket event) }
  | .established socket => { e with standing := .established (Smoltcp.process socket event) }
  | .removed => e

end Entry

/-! ### The service pass -/

inductive Phase
  /-- It waits for packets, a task or a deadline. -/
  | waiting
  /-- `stack.poll`, for the first or the second time in the pass. -/
  | polling (again : Bool)
  /-- The loop over `poll_accept`. -/
  | accepting
  /-- The first loop of `pump`. -/
  | receiving
  /-- The second loop of `pump`. -/
  | sending
  /-- The loop over `poll_transmit`. -/
  | transmitting
  /-- The loop over `poll_closed`. -/
  | ending
deriving DecidableEq

structure Terminator where
  entry : Entry
  /-- The plumbing of the connection is in `conns`. -/
  conn : Bool
  /-- The connection's bridge, once its stream was handed out. -/
  bridge : Option Bridge
  phase : Phase
deriving DecidableEq

inductive Op
  /-- The terminator's next step; `refused` is the answer of the channel it may send on. -/
  | drive (refused : Bool)
  | event (event : Event)
  | read (room : ℕ)
  | write (bytes : Bytes)
  | shutdown
  | drop
deriving DecidableEq

namespace Terminator

def listening (capacity : ℕ) : Terminator :=
  ⟨⟨.listener (.listening capacity), false, false, []⟩, false, none, .waiting⟩

variable (t : Terminator)

def accept (refused : Bool) : Terminator :=
  if t.entry.accepted then
    if refused then { t with entry := { t.entry.abort with accepted := false } }
    else { t with entry := { t.entry with accepted := false }, conn := true, bridge := some .pair }
  else { t with phase := .receiving }

/-- One turn of the first loop of `pump`: a permit comes before the bytes, so that they stay with the socket when
there is none. -/
def receive (b : Bridge) : Terminator :=
  if b.reserves then
    match t.entry.recv Bridge.chunk with
    | (_, .ok []) => { t with phase := .sending }
    | (entry, .ok bytes) => { t with entry := entry, bridge := some (b.deliver bytes) }
    | (_, .error .wouldBlock) => { t with phase := .sending }
    | (_, .error .reset) => { t with bridge := some b.markReset, phase := .sending }
    -- `Closed` and `Unknown`.
    | (_, .error _) => { t with bridge := some b.dropSender, phase := .sending }
  else { t with phase := .sending }

def nextOut (b : Bridge) : Option (Bytes × Bridge) :=
  match b.pendingOut, b.outbound with
  | some chunk, _ => some (chunk, { b with pendingOut := none })
  | none, chunk :: outbound => some (chunk, { b with outbound := outbound })
  | none, [] => none

/-- One turn of the second loop of `pump`: the rest of a chunk waits for the next pass, and the connection is closed
when the task's write half is gone. -/
def send (t : Terminator) (b : Bridge) : Terminator :=
  match nextOut b with
  | none =>
    if b.writing = false ∧ b.finished = false then
      { t with entry := t.entry.close, bridge := some { b with finished := true }, phase := .polling true }
    else { t with phase := .polling true }
  | some (chunk, b) =>
    match t.entry.send chunk with
    | (entry, .ok written) =>
      if written < chunk.length then
        { t with
          entry := entry
          bridge := some { b with pendingOut := some (chunk.drop written) }
          phase := .polling true }
      else { t with entry := entry, bridge := some b }
    | (_, .error .wouldBlock) =>
      { t with bridge := some { b with pendingOut := some chunk }, phase := .polling true }
    | (_, .error _) => { t with bridge := some b, phase := .polling true }

def finish : Terminator :=
  match t.entry.closed with
  | [] => { t with phase := .waiting }
  | reset :: closed =>
    let t := { t with entry := { t.entry with closed := closed } }
    if t.conn then
      { t with
        conn := false
        bridge := t.bridge.map fun b => if reset then b.markReset.dropPlumbing else b.dropPlumbing }
    else t

def drive (refused : Bool) : Terminator :=
  match t.phase with
  | .waiting => { t with phase := .polling false }
  | .polling again =>
    { t with entry := t.entry.harvest, phase := if again then .transmitting else .accepting }
  | .accepting => t.accept refused
  | .receiving =>
    match t.conn, t.bridge with
    | true, some b => t.receive b
    | _, _ => { t with phase := .polling true }
  | .sending =>
    match t.conn, t.bridge with
    | true, some b => t.send b
    | _, _ => { t with phase := .polling true }
  -- The reactor is gone when it refuses a segment: the pass ends here.
  | .transmitting => { t with phase := if refused then .waiting else .ending }
  | .ending => t.finish

def onStream (call : Bridge → Bridge) : Terminator :=
  { t with bridge := t.bridge.map fun b => if b.reading then call b else b }

/-- The interface's poll, which runs inside `stack.poll` only. -/
def onEvent (t : Terminator) (event : Event) : Terminator :=
  match t.phase with
  | .polling _ => { t with entry := t.entry.onEvent event }
  | _ => t

def step : Op → Terminator
  | .drive refused => t.drive refused
  | .event event => t.onEvent event
  | .read room => t.onStream fun b => (b.pollRead room).1
  | .write bytes => t.onStream fun b => (b.pollWrite bytes).1
  | .shutdown => t.onStream Bridge.pollShutdown
  | .drop => t.onStream Bridge.dropStream

/-! ### Where the connection is kept -/

end Terminator

/-- A call on the stack changes the socket that it finds established, or nothing; the queues stay as they are. -/
structure Entry.Served (e e' : Entry) : Prop where
  accepted : e'.accepted = e.accepted
  closed : e'.closed = e.closed
  standing : (∃ s s', e.standing = .established s ∧ e'.standing = .established s' ∧
    (s.state.waits = false → s'.state.waits = false)) ∨ e' = e

namespace Entry

omit [Smoltcp] in
theorem Served.refl (e : Entry) : Served e e := ⟨rfl, rfl, .inr rfl⟩

omit [Smoltcp] in
theorem Served.removed (h : Served e e') (hrem : e.standing = .removed) : e'.standing = .removed := by
  obtain ⟨s, s', hs, -⟩ | rfl := h.standing
  · rw [hrem] at hs
    cases hs
  · exact hrem

omit [Smoltcp] in
theorem Served.listener (h : Served e e') (hs : e'.standing = .listener s) : e.standing = .listener s := by
  obtain ⟨s₁, s₂, -, hs', -⟩ | rfl := h.standing
  · rw [hs'] at hs
    cases hs
  · exact hs

omit [Smoltcp] in
theorem served_of_established (h : e.standing = .established s) (hwaits : s.state.waits = false → s'.state.waits = false)
    (h' : e'.standing = .established s') (hacc : e'.accepted = e.accepted) (hcl : e'.closed = e.closed) :
    Served e e' :=
  ⟨hacc, hcl, .inl ⟨s, s', h, h', hwaits⟩⟩

variable (e : Entry)

theorem served_recv (count : ℕ) : Served e (e.recv count).1 := by
  unfold recv
  cases hs : e.standing with
  | listener socket | removed => exact .refl e
  | established socket =>
    dsimp only
    split_ifs
    · cases hrecv : Smoltcp.recvSlice socket count with
      | ok res => exact served_of_established hs (by rw [(Smoltcp.recvSlice_ok hrecv).2]; exact id) rfl rfl rfl
      | error error => cases error <;> exact .refl e
    · exact .refl e
    · exact .refl e

theorem served_send (bytes : Bytes) : Served e (e.send bytes).1 := by
  unfold send
  cases hs : e.standing with
  | listener socket | removed => exact .refl e
  | established socket =>
    dsimp only
    by_cases hmay : socket.maySend = false
    · rw [if_pos hmay]
      exact .refl e
    rw [if_neg hmay]
    rcases hsend : Smoltcp.sendSlice socket bytes with _ | ⟨written, socket'⟩
    · exact .refl e
    cases written with
    | zero => exact .refl e
    | succ written => exact served_of_established hs (by rw [(Smoltcp.sendSlice_some hsend).2]; exact id) rfl rfl rfl

theorem served_close : Served e e.close := by
  unfold close
  cases hs : e.standing with
  | listener socket | removed => exact .refl e
  | established socket => exact served_of_established hs (fun _ => Smoltcp.waits_close socket) rfl rfl rfl

theorem served_abort : Served e e.abort := by
  unfold abort
  cases hs : e.standing with
  | listener socket | removed => exact .refl e
  | established socket => exact served_of_established hs (fun _ => by rw [Smoltcp.state_abort]; rfl) rfl rfl rfl

/-! A removed socket is out of the calls' reach. -/

variable {e : Entry}

theorem recv_removed (h : e.standing = .removed) : e.recv count = (e, .error .unknown) := by
  simp [recv, h]

theorem send_removed (h : e.standing = .removed) : e.send bytes = (e, .error .unknown) := by
  simp [send, h]

theorem close_removed (h : e.standing = .removed) : e.close = e := by simp [close, h]

theorem abort_removed (h : e.standing = .removed) : e.abort = e := by simp [abort, h]

omit [Smoltcp] in
theorem harvest_removed (h : e.standing = .removed) : e.harvest = e := by simp [harvest, convert, reap, h]

theorem onEvent_removed (h : e.standing = .removed) : e.onEvent event = e := by
  simp [onEvent, h]

end Entry

namespace Terminator

omit [Smoltcp] in
theorem nextOut_keeps (h : nextOut b = some (chunk, b')) :
    b'.unread = b.unread ∧ b'.toTask = b.toTask ∧ b'.reset = b.reset := by
  unfold nextOut at h
  split at h
  · cases h
    exact ⟨rfl, rfl, rfl⟩
  · cases h
    exact ⟨rfl, rfl, rfl⟩
  · cases h

def Published : Phase → Prop
  | .receiving | .sending | .polling true => True
  | _ => False

/-- What every run keeps: the end of a connection is known only when its socket is gone, and its plumbing stays in
`conns` until then. -/
structure Sound (t : Terminator) : Prop where
  closed : t.entry.closed ≠ [] → t.entry.standing = .removed
  listener : ∀ s, t.entry.standing = .listener s →
    t.entry.closing = false ∧ t.entry.accepted = false ∧ t.bridge = none ∧ s.Unnamed
  accepted : t.entry.accepted = true → t.bridge = none
  published : Published t.phase → t.entry.accepted = false
  plumbed : t.entry.standing ≠ .removed → t.bridge ≠ none → t.conn = true

variable {t : Terminator} {b : Bridge}

omit [Smoltcp] in
theorem Sound.not_accepted (h : Sound t) (hb : t.bridge = some b) : t.entry.accepted = false := by
  cases hacc : t.entry.accepted with
  | false => rfl
  | true => exact absurd (h.accepted hacc) (by simp [hb])

omit [Smoltcp] in
theorem Sound.served (h : Sound t) (hb : t.bridge = some b) (he : t.entry.Served e) (b' : Bridge) (phase : Phase) :
    Sound { t with entry := e, bridge := some b', phase := phase } := by
  have hacc : e.accepted = false := by rw [he.accepted, h.not_accepted hb]
  refine ⟨fun hcl => he.removed (h.closed (he.closed ▸ hcl)), ?_, ?_, fun _ => hacc, ?_⟩
  · intro s hs
    have hnone := (h.listener s (he.listener hs)).2.2.1
    rw [hb] at hnone
    cases hnone
  · intro htrue
    rw [hacc] at htrue
    cases htrue
  · exact fun hstan _ => h.plumbed (fun hrem => hstan (he.removed hrem)) (by simp [hb])

omit [Smoltcp] in
theorem Sound.onStream (h : Sound t) (call : Bridge → Bridge) : Sound (t.onStream call) := by
  rcases hb : t.bridge with _ | b
  · have heq : t.onStream call = t := by
      unfold Terminator.onStream
      rw [hb, Option.map_none, ← hb]
    rwa [heq]
  have heq : t.onStream call =
      { t with entry := t.entry, bridge := some (if b.reading then call b else b), phase := t.phase } := by
    simp only [Terminator.onStream, hb, Option.map_some]
  rw [heq]
  exact h.served hb (.refl _) _ _

theorem Sound.onEvent (h : Sound t) (event : Event) : Sound (t.onEvent event) := by
  unfold Terminator.onEvent
  split
  · cases hs : t.entry.standing with
    | removed => simpa [Entry.onEvent, hs] using h
    | listener socket =>
      obtain ⟨hclosing, hacc, hbr, hunnamed⟩ := h.listener socket hs
      refine ⟨?_, ?_, ?_, ?_, ?_⟩ <;> simp only [Entry.onEvent, hs]
      · intro hcl
        simpa [hs] using h.closed hcl
      · intro s hs'
        cases hs'
        exact ⟨hclosing, hacc, hbr, Smoltcp.unnamed_process hunnamed event⟩
      · exact fun _ => hbr
      · exact fun _ => hacc
      · exact fun _ hsome => absurd hbr hsome
    | established socket =>
      refine ⟨?_, ?_, ?_, ?_, ?_⟩ <;> simp only [Entry.onEvent, hs]
      · intro hcl
        simpa [hs] using h.closed hcl
      · exact fun _ hlisn => (nomatch hlisn)
      · exact h.accepted
      · exact h.published
      · exact fun _ => h.plumbed (by simp [hs])
  · exact h

omit [Smoltcp] in
theorem Sound.harvest (h : Sound t) {phase : Phase} (hphase : ¬ Published phase) :
    Sound { t with entry := t.entry.harvest, phase := phase } := by
  unfold Entry.harvest
  have hconv : Sound { t with entry := t.entry.convert, phase := phase } := by
    cases hs : t.entry.standing with
    | established socket | removed =>
      simp only [Entry.convert, hs]
      exact ⟨h.closed, h.listener, h.accepted, fun hp => absurd hp hphase, h.plumbed⟩
    | listener socket =>
      obtain ⟨hclosing, hacc, hbr, -⟩ := h.listener socket hs
      have hopen : t.entry.closed = [] := by
        by_contra hcl
        have := h.closed hcl
        rw [hs] at this
        cases this
      simp only [Entry.convert, hs]
      split_ifs
      · exact ⟨h.closed, h.listener, h.accepted, fun hp => absurd hp hphase, h.plumbed⟩
      · exact ⟨fun hcl => absurd hopen hcl, fun _ hl => (nomatch hl), fun _ => hbr,
          fun hp => absurd hp hphase, fun _ hsome => absurd hbr hsome⟩
      · exact ⟨fun _ => rfl, fun _ hl => (nomatch hl), fun _ => hbr, fun hp => absurd hp hphase,
          fun hstan => absurd rfl hstan⟩
  unfold Entry.reap
  split
  · split_ifs
    · exact ⟨fun _ => rfl, fun _ hl => (nomatch hl), hconv.accepted, fun hp => absurd hp hphase,
        fun hstan => absurd rfl hstan⟩
    · exact hconv
  · exact hconv

theorem Sound.accept (h : Sound t) (refused : Bool) : Sound (t.accept refused) := by
  unfold Terminator.accept
  split_ifs with hacc href
  · have hbr := h.accepted hacc
    have hserv := t.entry.served_abort
    refine ⟨fun hcl => hserv.removed (h.closed (hserv.closed ▸ hcl)), fun s hs => ?_, fun hfalse => (nomatch hfalse),
      fun _ => rfl, fun _ hsome => absurd hbr hsome⟩
    rw [(h.listener s (hserv.listener hs)).2.1] at hacc
    cases hacc
  · refine ⟨h.closed, ?_, fun hfalse => (nomatch hfalse), fun _ => rfl, fun _ _ => rfl⟩
    intro s hs
    rw [(h.listener s hs).2.1] at hacc
    cases hacc
  · exact ⟨h.closed, h.listener, h.accepted, fun _ => Bool.eq_false_iff.mpr hacc, h.plumbed⟩

theorem Sound.receive (h : Sound t) (hb : t.bridge = some b) : Sound (t.receive b) := by
  have hstay : ∀ phase, Sound { t with phase := phase } := by
    intro phase
    have := h.served hb (.refl _) b phase
    rwa [← hb] at this
  have hrecv := t.entry.served_recv Bridge.chunk
  unfold Terminator.receive
  split_ifs
  · split
    · exact hstay _
    · rename_i entry bytes _ heq
      rw [heq] at hrecv
      exact h.served hb hrecv _ t.phase
    · exact hstay _
    · exact h.served hb (.refl _) _ _
    · exact h.served hb (.refl _) _ _
  · exact hstay _

theorem Sound.send (h : Sound t) (hb : t.bridge = some b) : Sound (t.send b) := by
  unfold Terminator.send
  split
  · split_ifs
    · exact h.served hb t.entry.served_close _ _
    · have := h.served hb (.refl _) b (.polling true)
      rwa [← hb] at this
  rename_i chunk b' _
  have hsend := t.entry.served_send chunk
  split
  · rename_i entry written heq
    rw [heq] at hsend
    split_ifs
    · exact h.served hb hsend _ _
    · exact h.served hb hsend _ t.phase
  · exact h.served hb (.refl _) _ _
  · exact h.served hb (.refl _) _ _

omit [Smoltcp] in
theorem Sound.finish (h : Sound t) (hphase : t.phase = .ending) : Sound t.finish := by
  unfold Terminator.finish
  split
  · exact ⟨h.closed, h.listener, h.accepted, fun hp => (nomatch hp), h.plumbed⟩
  rename_i reset closed hcl
  have hrem := h.closed (by simp [hcl])
  have hpub : ¬ Published t.phase := by
    rw [hphase]
    exact id
  have hlisn : ∀ s, t.entry.standing ≠ .listener s := fun s hs => by
    rw [hs] at hrem
    cases hrem
  dsimp only
  by_cases hconn : t.conn = true
  · rw [if_pos hconn]
    refine ⟨fun _ => hrem, fun s hs => absurd hs (hlisn s), fun hacc => ?_, fun hp => absurd hp hpub,
      fun hstan => absurd hrem hstan⟩
    rw [h.accepted hacc]
    rfl
  · rw [if_neg hconn]
    exact ⟨fun _ => hrem, fun s hs => absurd hs (hlisn s), h.accepted, fun hp => absurd hp hpub,
      fun hstan => absurd hrem hstan⟩

theorem Sound.drive (h : Sound t) (refused : Bool) : Sound (t.drive refused) := by
  have hstay : ∀ phase, ¬ Published phase → Sound { t with phase := phase } := fun phase hphase =>
    ⟨h.closed, h.listener, h.accepted, fun hp => absurd hp hphase, h.plumbed⟩
  -- The pump of a connection that is not in `conns`.
  have hskip : Published t.phase → Sound { t with phase := .polling true } := fun hphase =>
    ⟨h.closed, h.listener, h.accepted, fun _ => h.published hphase, h.plumbed⟩
  unfold Terminator.drive
  cases hphase : t.phase with
  | waiting => exact hstay _ id
  | polling again => cases again <;> exact h.harvest id
  | accepting => exact h.accept refused
  | receiving =>
    dsimp only
    split
    · exact h.receive (by assumption)
    · exact hskip (by rw [hphase]; trivial)
  | sending =>
    dsimp only
    split
    · exact h.send (by assumption)
    · exact hskip (by rw [hphase]; trivial)
  | transmitting => cases refused <;> exact hstay _ id
  | ending => exact h.finish hphase

theorem Sound.step (h : Sound t) (op : Op) : Sound (t.step op) := by
  cases op with
  | drive refused => exact h.drive refused
  | event event => exact h.onEvent event
  | read room | write bytes | shutdown | drop => exact h.onStream _

/-! ### What a run has carried -/

variable (t : Terminator)

def gains : Op → Bytes
  | .event event =>
    match t.phase, t.entry.socket with
    | .polling _, some socket => Smoltcp.gained socket event
    | _, _ => []
  | _ => []

def unread (t : Terminator) : Bytes :=
  match t.bridge with
  | some b => b.unread
  | none => []

def readResult (room : ℕ) : Option ReadResult :=
  match t.bridge with
  | some b => if b.reading then some (b.pollRead room).2 else none
  | none => none

def returns : Op → Bytes
  | .read room => ((t.readResult room).map ReadResult.bytes).getD []
  | _ => []

def resets : Op → Bool
  | .event .rst =>
    match t.phase, t.entry.socket with
    | .polling _, some socket =>
      !socket.state.handshaking && !decide (socket.state = .closed) && !t.entry.closing
    | _, _ => false
  | _ => false

omit [Smoltcp] in
theorem sound_listening (cap : ℕ) : Sound (listening cap) := by
  refine ⟨fun h => absurd rfl h, ?_, fun _ => rfl, fun _ => rfl, fun _ h => absurd rfl h⟩
  intro s hs
  cases hs
  exact ⟨rfl, rfl, rfl, fun _ => .inl rfl⟩

end Terminator

/-- A terminator, with the bytes that it took from the client, those that the task has read, and whether the client
reset the connection. -/
structure Ledger where
  terminator : Terminator
  accepted : Bytes
  delivered : Bytes
  reset : Bool
deriving DecidableEq

namespace Ledger

def opened (capacity : ℕ) : Ledger := ⟨.listening capacity, [], [], false⟩

def step (l : Ledger) (op : Op) : Ledger where
  terminator := l.terminator.step op
  accepted := l.accepted ++ l.terminator.gains op
  delivered := l.delivered ++ l.terminator.returns op
  reset := l.reset || l.terminator.resets op

def pass (events : List Event) (steps : ℕ) : List Op :=
  .drive false :: events.map .event ++ List.replicate steps (.drive false)

def handshake : List Op := pass [.syn, .ack] 8

end Ledger

end Boreas.L4
