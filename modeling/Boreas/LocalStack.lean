import Boreas.Terminator

/-! # The sockets of the local stack

`LocalStack` of l4/stream.rs: the listeners it keeps for each port, the connections they turn into, and their
handles.  `serial` tells one opening of a slot from the next and is not in the source: a handle comes back as soon as
its socket is removed.  `Books` is what every call keeps: each socket is a listener's or a connection's and not both,
and there are never more than the ceiling allows. -/

namespace Boreas.L4

open List Option Table
open Smoltcp (lookup_vacant vacant)

structure Opened where
  socket : Socket
  serial : ℕ
  /-- The SYN-ACK of the socket has left. -/
  answered : Bool
deriving DecidableEq

def Opened.onEvent [Smoltcp] (o : Opened) (event : Event) : Opened :=
  if event.completes && !o.answered then o else { o with socket := Smoltcp.process o.socket event }

structure Listener where
  handle : ℕ
  port : ℕ
deriving DecidableEq

structure TerminationLimits where
  maxSockets : ℕ
  backlog : ℕ
  socketBuffer : ℕ
  maxSockets_pos : 0 < maxSockets
  backlog_pos : 0 < backlog
  socketBuffer_pos : 0 < socketBuffer

structure Terminated where
  id : ℕ
  serial : ℕ
deriving DecidableEq

structure Ended where
  id : ℕ
  reset : Bool
  serial : ℕ
deriving DecidableEq

structure LocalStack where
  sockets : Table ℕ Opened
  ports : List ℕ
  everyPort : Bool
  /-- SYNs pushed since the last poll to ports outside `ports`. -/
  wanted : ℕ → ℕ
  listeners : List Listener
  limits : TerminationLimits
  established : List ℕ
  /-- Connections this side closed or aborted. -/
  closing : Finset ℕ
  accepted : List Terminated
  closed : List Ended
  serials : ℕ

namespace LocalStack

section Stack

variable [Smoltcp] (s : LocalStack)

def socketCount : ℕ := s.listeners.length + s.established.length

def stateOf (handle : ℕ) : Option State := (s.sockets.lookup handle).map (·.socket.state)

variable (port : ℕ)

def listening : ℕ :=
  (s.listeners.filter fun l => l.port = port ∧ s.stateOf l.handle = some .listen).length

def addListener : LocalStack × Bool :=
  if s.limits.maxSockets ≤ s.socketCount then (s, false)
  else if port = 0 then (s, false)
  else
    ({ s with
        sockets := s.sockets.insert (vacant s.sockets) ⟨.listening s.limits.socketBuffer, s.serials, false⟩
        listeners := s.listeners ++ [⟨vacant s.sockets, port⟩]
        serials := s.serials + 1 }, true)

def addListeners (port : ℕ) : ℕ → LocalStack → LocalStack × Bool
  | 0, s => (s, true)
  | count + 1, s =>
    match s.addListener port with
    | (s, false) => (s, false)
    | (s, true) => addListeners port count s

def replenish : List ℕ → LocalStack → LocalStack
  | [], s => s
  | port :: ports, s =>
    match addListeners port (s.limits.backlog - s.listening port) s with
    | (s, false) => s
    | (s, true) => replenish ports s

def replenishListeners : LocalStack := replenish s.ports s

def bare (ports : List ℕ) (limits : TerminationLimits) : LocalStack :=
  ⟨∅, ports, false, fun _ => 0, [], limits, [], ∅, [], [], 0⟩

/-- A ceiling below one full backlog for every port is refused. -/
def new (ports : List ℕ) (limits : TerminationLimits) : Option LocalStack :=
  if limits.maxSockets < ports.length * limits.backlog then none else some (bare ports limits).replenishListeners

def terminateEveryPort : LocalStack := { s with everyPort := true }

def synDestination (packet : Bytes) : Option ℕ := do
  let first ← packet[0]?
  let tcpAt ←
    if first.toNat / 16 = 4 ∧ packet[9]? = some 6 then some (first.toNat % 16 * 4)
    else if first.toNat / 16 = 6 ∧ packet[6]? = some 6 then some 40
    else none
  let flags ← packet[tcpAt + 13]?
  let high ← packet[tcpAt + 2]?
  let low ← packet[tcpAt + 3]?
  if flags &&& 0x12 = 0x02 then some (high.toNat * 256 + low.toNat) else none

def ask : LocalStack :=
  { s with wanted := fun other => if other = port then s.wanted port + 1 else s.wanted other }

def want : LocalStack :=
  if (s.ask port).listening port < (s.ask port).wanted port then ((s.ask port).addListener port).1 else s.ask port

def push (packet : Bytes) : LocalStack :=
  match synDestination packet with
  | some port => if s.everyPort ∧ port ∉ s.ports then s.want port else s
  | none => s

/-! ### A poll -/

variable (events : ℕ → List Event)

def iface : LocalStack :=
  { s with sockets := s.sockets.retain fun handle o => some ((events handle).foldl Opened.onEvent o) }

def stays (l : Listener) : Bool := (s.stateOf l.handle).any State.waits

def convert (handle : ℕ) : LocalStack :=
  match s.sockets.lookup handle with
  | none => s
  | some o =>
    if o.socket.tuple then
      { s with established := s.established ++ [handle], accepted := s.accepted ++ [⟨handle, o.serial⟩] }
    else { s with sockets := s.sockets.erase handle }

def reap (handle : ℕ) : LocalStack :=
  match s.sockets.lookup handle with
  | none => s
  | some o =>
    { s with
      established := s.established.erase handle
      sockets := s.sockets.erase handle
      closing := s.closing.erase handle
      closed := s.closed ++ [⟨handle, handle ∉ s.closing, o.serial⟩] }

def converted : List ℕ := (s.listeners.filter fun l => !s.stays l).map Listener.handle

def convertAll : LocalStack :=
  s.converted.foldl convert { s with listeners := s.listeners.filter s.stays }

def finished : List ℕ := s.established.filter fun handle => s.stateOf handle = some .closed

def harvest : LocalStack := s.convertAll.finished.foldl reap s.convertAll

/-- The stack with its interface polled and the wishes forgotten. -/
def seen : LocalStack := { s.iface events with wanted := fun _ => 0 }

def poll : LocalStack := (s.seen events).harvest.replenishListeners

/-! ### Calls on one connection -/

def entry (id : ℕ) : Entry where
  standing :=
    match s.sockets.lookup id with
    | some o => if id ∈ s.established then .established o.socket else .removed
    | none => .removed
  closing := id ∈ s.closing
  accepted := false
  closed := []

def put (id : ℕ) (e : Entry) : LocalStack :=
  match e.standing, s.sockets.lookup id with
  | .established socket, some o =>
    { s with
      sockets := s.sockets.insert id { o with socket := socket }
      closing := if e.closing then insert id s.closing else s.closing }
  | _, _ => s

def recv (id count : ℕ) : LocalStack × Except StreamError Bytes :=
  let result := (s.entry id).recv count
  (s.put id result.1, result.2)

def send (id : ℕ) (bytes : Bytes) : LocalStack × Except StreamError ℕ :=
  let result := (s.entry id).send bytes
  (s.put id result.1, result.2)

def close (id : ℕ) : LocalStack := s.put id (s.entry id).close

def abort (id : ℕ) : LocalStack := s.put id (s.entry id).abort

/-- The segments that leave through `poll_transmit` have the SYN-ACKs of these half-open sockets among them. -/
def transmit (handles : List ℕ) : LocalStack :=
  { s with
    sockets := s.sockets.retain fun handle o =>
      some { o with answered := o.answered || (handle ∈ handles && o.socket.state = .synReceived) } }

end Stack

/-! ### The books -/

/-- Each socket is a listener's, a connection's, or among those on their way from the one to the other, and not two of
these; connections are past their handshake. -/
structure Books (pending : List ℕ) (s : LocalStack) : Prop where
  nodup : (s.listeners.map Listener.handle ++ pending ++ s.established).Nodup
  exists_iff : ∀ handle, (s.sockets.lookup handle).isSome ↔
    handle ∈ s.listeners.map Listener.handle ++ pending ++ s.established
  ceiling : s.listeners.length + pending.length + s.established.length ≤ s.limits.maxSockets
  past : ∀ handle ∈ pending ++ s.established, ∀ o, s.sockets.lookup handle = some o → o.socket.state.waits = false

structure Frame (touched : List ℕ) (s s' : LocalStack) : Prop where
  listeners : s'.listeners = s.listeners
  ports : s'.ports = s.ports
  wanted : s'.wanted = s.wanted
  others : ∀ handle ∉ touched, s'.sockets.lookup handle = s.sockets.lookup handle

namespace Frame

variable {s s' s'' : LocalStack} {touched : List ℕ}

theorem refl (touched : List ℕ) (s : LocalStack) : Frame touched s s := ⟨rfl, rfl, rfl, fun _ _ => rfl⟩

theorem trans (h : Frame touched s s') (h' : Frame touched s' s'') : Frame touched s s'' where
  listeners := h'.listeners.trans h.listeners
  ports := h'.ports.trans h.ports
  wanted := h'.wanted.trans h.wanted
  others := fun handle hne => (h'.others handle hne).trans (h.others handle hne)

theorem mono (h : Frame touched s s') (hsub : touched ⊆ more) : Frame more s s' :=
  { h with others := fun handle hne => h.others handle fun hmem => hne (hsub hmem) }

end Frame

theorem waits_foldl [Smoltcp] (h : o.socket.state.waits = false) (evs : List Event) :
    (evs.foldl Opened.onEvent o).socket.state.waits = false := by
  induction evs generalizing o with
  | nil => exact h
  | cons event evs ih =>
    apply ih
    unfold Opened.onEvent
    split_ifs
    · exact h
    · exact Smoltcp.waits_process h event

section Replenish

variable [Smoltcp] {R : LocalStack → LocalStack → Prop} (hrefl : ∀ s, R s s) (htrans : ∀ {a b c}, R a b → R b c → R a c)
include hrefl htrans

theorem addListeners_rel (hadd : ∀ s : LocalStack, R s (s.addListener port).1) :
    ∀ (count : ℕ) (s : LocalStack), R s (addListeners port count s).1
  | 0, s => hrefl s
  | count + 1, s => by
    have hone := hadd s
    unfold addListeners
    rcases hadded : s.addListener port with ⟨s', added⟩
    rw [hadded] at hone
    cases added with
    | false => exact hone
    | true => exact htrans hone (addListeners_rel hadd count s')

theorem replenish_rel : ∀ {ports : List ℕ}, (∀ port ∈ ports, ∀ s : LocalStack, R s (s.addListener port).1) →
    ∀ s : LocalStack, R s (replenish ports s)
  | [], _, s => hrefl s
  | port :: ports, hadd, s => by
    have hone := addListeners_rel hrefl htrans (hadd port mem_cons_self) (s.limits.backlog - s.listening port) s
    unfold replenish
    rcases hadded : addListeners port (s.limits.backlog - s.listening port) s with ⟨s', added⟩
    rw [hadded] at hone
    cases added with
    | false => exact hone
    | true =>
      exact htrans hone (replenish_rel (fun port hport => hadd port (mem_cons_of_mem _ hport)) s')

end Replenish

section Books

variable {s : LocalStack} {pending : List ℕ}

theorem vacant_notMem [Smoltcp] (h : Books pending s) :
    vacant s.sockets ∉ s.listeners.map Listener.handle ++ pending ++ s.established := by
  rw [← h.exists_iff, lookup_vacant]
  exact Bool.false_ne_true

theorem Books.handle_notMem (h : Books pending s) (hl : l ∈ s.listeners) : l.handle ∉ pending ++ s.established := by
  have hnodup := h.nodup
  rw [append_assoc] at hnodup
  exact fun hmem => (nodup_append.mp hnodup).2.2 l.handle (mem_map_of_mem hl) l.handle hmem rfl

theorem Books.addListener [Smoltcp] (h : Books [] s) (port : ℕ) : Books [] (s.addListener port).1 := by
  unfold LocalStack.addListener
  split_ifs with hfull hport
  · exact h
  · exact h
  have hvacant := vacant_notMem h
  rw [append_nil] at hvacant
  have hnodup := h.nodup
  have hceil := h.ceiling
  have hperm : (s.listeners.map Listener.handle ++ [vacant s.sockets] ++ s.established).Perm
      (vacant s.sockets :: (s.listeners.map Listener.handle ++ s.established)) := by
    rw [append_assoc]
    exact perm_middle
  refine ⟨?_, fun handle => ?_, ?_, fun handle hmem o ho => ?_⟩
  · dsimp only
    rw [append_nil, map_append, map_singleton, hperm.nodup_iff]
    rw [append_nil] at hnodup
    exact nodup_cons.mpr ⟨hvacant, hnodup⟩
  · dsimp only
    rw [lookup_insert_eq]
    split_ifs with heq
    · simp [heq]
    · rw [h.exists_iff]
      simp [heq]
  · unfold socketCount at hfull
    simp only [length_append, length_singleton, length_nil] at hceil ⊢
    omega
  · dsimp only at ho
    rw [lookup_insert_eq] at ho
    split_ifs at ho with heq
    · exact absurd (mem_append_right _ (heq ▸ hmem)) hvacant
    · exact h.past handle hmem o ho

theorem Books.map (h : Books [] s) {f : ℕ → Opened → Opened}
    (hf : ∀ handle o, o.socket.state.waits = false → (f handle o).socket.state.waits = false) :
    Books [] { s with sockets := s.sockets.retain fun handle o => some (f handle o) } := by
  refine ⟨h.nodup, fun handle => ?_, h.ceiling, fun handle hmem o ho => ?_⟩
  · refine Iff.trans ?_ (h.exists_iff handle)
    rw [lookup_retain]
    cases s.sockets.lookup handle <;> rfl
  · dsimp only at ho
    rw [lookup_retain, bind_eq_some_iff] at ho
    obtain ⟨o', ho', heq⟩ := ho
    cases heq
    exact hf handle o' (h.past handle hmem o' ho')

theorem Books.iface [Smoltcp] (h : Books [] s) (evs : ℕ → List Event) : Books [] (s.iface evs) :=
  h.map fun handle _ ho => waits_foldl ho (evs handle)

theorem Books.convert (h : Books (handle :: pending) s) : Books pending (s.convert handle) := by
  obtain ⟨hnodup, hexists, hceil, hpast⟩ := h
  have hsome : (s.sockets.lookup handle).isSome := (hexists handle).mpr (by simp)
  obtain ⟨o, ho⟩ := isSome_iff_exists.mp hsome
  have hperm : (s.listeners.map Listener.handle ++ handle :: pending ++ s.established).Perm
      (handle :: (s.listeners.map Listener.handle ++ pending ++ s.established)) := by
    rw [append_assoc, append_assoc]
    exact perm_middle
  rw [length_cons] at hceil
  unfold LocalStack.convert
  rw [ho]
  dsimp only
  split_ifs with htuple
  · have hback : (s.listeners.map Listener.handle ++ pending ++ (s.established ++ [handle])).Perm
        (s.listeners.map Listener.handle ++ handle :: pending ++ s.established) := by
      rw [← append_assoc]
      exact (perm_append_singleton _ _).trans hperm.symm
    refine ⟨hback.nodup_iff.mpr hnodup, fun other => ?_, ?_, fun other hmem => ?_⟩
    · rw [hback.mem_iff]
      exact hexists other
    · rw [length_append, length_singleton]
      dsimp only
      omega
    · refine hpast other ?_
      simp only [mem_append, mem_cons] at hmem ⊢
      tauto
  · rw [hperm.nodup_iff, nodup_cons] at hnodup
    refine ⟨hnodup.2, fun other => ?_, ?_, fun other hmem o' ho' => ?_⟩
    · have hother := hexists other
      rw [lookup_erase_eq]
      split_ifs with heq
      · subst heq
        exact ⟨fun hnone => absurd hnone Bool.false_ne_true, fun hmem => absurd hmem hnodup.1⟩
      · rw [hother]
        simp [heq]
    · dsimp only
      omega
    · dsimp only at ho'
      rw [lookup_erase_eq] at ho'
      split_ifs at ho' with heq
      exact hpast other (mem_cons_of_mem _ hmem) o' ho'

theorem frame_convert (s : LocalStack) (handle : ℕ) : Frame [handle] s (s.convert handle) := by
  unfold LocalStack.convert
  split
  · exact .refl _ _
  · split_ifs
    · exact ⟨rfl, rfl, rfl, fun _ _ => rfl⟩
    · refine ⟨rfl, rfl, rfl, fun other hne => ?_⟩
      rw [lookup_erase_eq, if_neg (by simpa using hne)]

theorem Books.reap (h : Books [] s) (hmem : handle ∈ s.established) : Books [] (s.reap handle) := by
  obtain ⟨hnodup, hexists, hceil, hpast⟩ := h
  have hsome : (s.sockets.lookup handle).isSome := (hexists handle).mpr (mem_append_right _ hmem)
  obtain ⟨o, ho⟩ := isSome_iff_exists.mp hsome
  have hlen := length_erase_of_mem hmem
  have hsplit := nodup_append.mp hnodup
  unfold LocalStack.reap
  rw [ho]
  refine ⟨?_, fun other => ?_, ?_, fun other hother o' ho' => ?_⟩
  · exact hnodup.sublist ((erase_sublist).append_left _)
  · have hother := hexists other
    rw [lookup_erase_eq]
    split_ifs with heq
    · subst heq
      refine ⟨fun hnone => absurd hnone Bool.false_ne_true, fun hin => ?_⟩
      obtain hin | hin := mem_append.mp hin
      · exact absurd rfl (hsplit.2.2 other hin other hmem)
      · exact absurd hin (hsplit.2.1.not_mem_erase)
    · rw [hother]
      simp only [mem_append, mem_erase_of_ne heq]
  · dsimp only
    omega
  · dsimp only at ho'
    rw [lookup_erase_eq] at ho'
    split_ifs at ho' with heq
    exact hpast other (mem_of_mem_erase hother) o' ho'

theorem frame_reap (s : LocalStack) (handle : ℕ) : Frame [handle] s (s.reap handle) := by
  unfold LocalStack.reap
  split
  · exact .refl _ _
  · refine ⟨rfl, rfl, rfl, fun other hne => ?_⟩
    rw [lookup_erase_eq, if_neg (by simpa using hne)]

theorem Books.foldl_convert (h : Books pending s) : Books [] (pending.foldl LocalStack.convert s) := by
  induction pending generalizing s with
  | nil => exact h
  | cons handle pending ih => exact ih h.convert

theorem frame_foldl (hact : ∀ s handle, Frame [handle] s (act s handle))
    (handles : List ℕ) (s : LocalStack) : Frame handles s (handles.foldl act s) := by
  induction handles generalizing s with
  | nil => exact .refl _ _
  | cons handle handles ih =>
    exact ((hact s handle).mono (by simp)).trans ((ih (act s handle)).mono (subset_cons_self _ _))

theorem converted_spec (s : LocalStack) : (s.listeners.map Listener.handle).Perm
      ((s.listeners.filter s.stays).map Listener.handle ++ s.converted) := by
  unfold converted
  rw [← map_append]
  exact (filter_append_perm s.stays s.listeners).symm.map _

theorem Books.split (h : Books [] s) : Books s.converted { s with listeners := s.listeners.filter s.stays } := by
  have hperm : (s.listeners.map Listener.handle ++ [] ++ s.established).Perm
      ((s.listeners.filter s.stays).map Listener.handle ++ s.converted ++ s.established) := by
    rw [append_nil]
    exact s.converted_spec.append_right _
  refine ⟨hperm.nodup_iff.mp h.nodup, fun handle => ?_, ?_, fun handle hmem o ho => ?_⟩
  · rw [h.exists_iff handle]
    exact hperm.mem_iff
  · have hlen := hperm.length_eq
    have hceil := h.ceiling
    simp only [length_append, length_map] at hlen hceil ⊢
    omega
  · obtain hmem | hmem := mem_append.mp hmem
    · obtain ⟨l, hl, rfl⟩ := mem_map.mp hmem
      have hstays := of_mem_filter hl
      unfold stays stateOf at hstays
      rw [show s.sockets.lookup l.handle = some o from ho] at hstays
      simpa using hstays
    · exact h.past handle hmem o ho

theorem Books.convertAll (h : Books [] s) : Books [] s.convertAll := h.split.foldl_convert

theorem Books.foldl_reap {handles : List ℕ} (h : Books [] s) (hnodup : handles.Nodup)
    (hsub : ∀ handle ∈ handles, handle ∈ s.established) : Books [] (handles.foldl LocalStack.reap s) := by
  induction handles generalizing s with
  | nil => exact h
  | cons handle handles ih =>
    rw [nodup_cons] at hnodup
    refine ih (h.reap (hsub handle mem_cons_self)) hnodup.2 fun other hother => ?_
    have hne : other ≠ handle := fun heq => hnodup.1 (heq ▸ hother)
    have hmem := hsub other (mem_cons_of_mem _ hother)
    unfold LocalStack.reap
    split
    · exact hmem
    · exact (mem_erase_of_ne hne).mpr hmem

theorem Books.nodup_established (h : Books pending s) : s.established.Nodup := (nodup_append.mp h.nodup).2.1

theorem Books.harvest (h : Books [] s) : Books [] s.harvest :=
  h.convertAll.foldl_reap (h.convertAll.nodup_established.filter _) fun _ hmem => mem_of_mem_filter hmem

theorem Books.replenish [Smoltcp] (h : Books [] s) (ports : List ℕ) : Books [] (LocalStack.replenish ports s) :=
  replenish_rel (R := fun s s' => Books [] s → Books [] s') (fun _ h => h) (fun h h' hs => h' (h hs))
    (fun port _ _ h => h.addListener port) s h

theorem Books.seen [Smoltcp] (h : Books [] s) (evs : ℕ → List Event) : Books [] (s.seen evs) :=
  have hiface := h.iface evs
  { hiface with }

theorem Books.poll [Smoltcp] (h : Books [] s) (evs : ℕ → List Event) : Books [] (s.poll evs) :=
  (h.seen evs).harvest.replenish _

theorem Books.push [Smoltcp] (h : Books [] s) (pkt : Bytes) : Books [] (s.push pkt) := by
  unfold LocalStack.push
  rcases synDestination pkt with _ | port
  · exact h
  dsimp only
  split_ifs
  · have hask : Books [] (s.ask port) := { h with }
    unfold want
    split_ifs
    · exact hask.addListener port
    · exact hask
  · exact h

theorem Books.transmit (h : Books [] s) (handles : List ℕ) : Books [] (s.transmit handles) := h.map fun _ _ ho => ho

theorem books_bare (ports : List ℕ) (limits : TerminationLimits) : Books [] (bare ports limits) :=
  ⟨nodup_nil, fun handle => by simp [bare], Nat.zero_le _, nofun⟩

theorem books_new [Smoltcp] {ports : List ℕ} {limits : TerminationLimits} (h : LocalStack.new ports limits = some s) :
    Books [] s := by
  unfold LocalStack.new at h
  split_ifs at h
  cases h
  exact (books_bare ports limits).replenish _

end Books

/-! ### Calls leave all but their connection alone -/

section Calls

variable {s : LocalStack}

theorem entry_established {id : ℕ} (h : (s.entry id).standing = .established socket) :
    id ∈ s.established ∧ ∃ o, s.sockets.lookup id = some o ∧ o.socket = socket := by
  unfold entry at h
  rcases ho : s.sockets.lookup id with _ | o
  · rw [ho] at h
    cases h
  rw [ho] at h
  split_ifs at h with hmem
  cases h
  exact ⟨hmem, o, rfl, rfl⟩

theorem Books.past_of_served (h : Books [] s) {id : ℕ} (hserv : (s.entry id).Served e)
    (hs : e.standing = .established socket) : socket.state.waits = false := by
  have hpast : ∀ {socket}, (s.entry id).standing = .established socket → socket.state.waits = false := fun hs => by
    obtain ⟨hmem, o, ho, rfl⟩ := entry_established hs
    exact h.past id hmem o ho
  obtain ⟨socket₀, socket', hs₀, hs', hwaits⟩ | rfl := hserv.standing
  · rw [hs'] at hs
    cases hs
    exact hwaits (hpast hs₀)
  · exact hpast hs

theorem frame_put (s : LocalStack) (id : ℕ) (e : Entry) : Frame [id] s (s.put id e) := by
  unfold put
  split
  · refine ⟨rfl, rfl, rfl, fun other hne => ?_⟩
    rw [lookup_insert_eq, if_neg (by simpa using hne)]
  · exact .refl _ _

theorem put_of_served {id : ℕ} (h : (s.entry id).Served e) : id ∈ s.established ∨ s.put id e = s := by
  by_cases hmem : id ∈ s.established
  · exact .inl hmem
  have hrem : (s.entry id).standing = .removed := by
    unfold entry
    cases s.sockets.lookup id with
    | none => rfl
    | some o => exact if_neg hmem
  obtain ⟨socket, -, hs, -⟩ | rfl := h.standing
  · rw [hrem] at hs
    cases hs
  · right
    unfold put
    rw [hrem]

theorem Books.put (h : Books [] s) {id : ℕ} (hserv : (s.entry id).Served e) : Books [] (s.put id e) := by
  unfold LocalStack.put
  split
  · rename_i socket o hs ho
    refine ⟨h.nodup, fun handle => ?_, h.ceiling, fun handle hmem o' ho' => ?_⟩
    · refine Iff.trans ?_ (h.exists_iff handle)
      rw [lookup_insert_eq]
      split_ifs with heq
      · rw [heq, ho]
        exact ⟨fun _ => rfl, fun _ => rfl⟩
      · rfl
    · dsimp only at ho'
      rw [lookup_insert_eq] at ho'
      split_ifs at ho' with heq
      · cases ho'
        exact h.past_of_served hserv hs
      · exact h.past handle hmem o' ho'
  · exact h

variable [Smoltcp]

theorem Books.recv (h : Books [] s) (id count : ℕ) : Books [] (s.recv id count).1 := h.put (Entry.served_recv _ count)

theorem Books.send (h : Books [] s) (id : ℕ) (bytes : Bytes) : Books [] (s.send id bytes).1 :=
  h.put (Entry.served_send _ bytes)

theorem Books.close (h : Books [] s) (id : ℕ) : Books [] (s.close id) := h.put (Entry.served_close _)

theorem Books.abort (h : Books [] s) (id : ℕ) : Books [] (s.abort id) := h.put (Entry.served_abort _)

end Calls

end LocalStack

end Boreas.L4
