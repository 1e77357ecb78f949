import Boreas.Runs
import Boreas.Wire

/-! # The host's device behind two threads

`Device` of ffi/src/seam.rs: a reader and a writer thread own the host's callbacks.  The reactor goes on after a
transient error; the threads return on any.  `Link` is the device with its reactor, in any interleaving.
`carries_iff`: all three go on in order exactly while no call of the host has failed. -/

namespace Boreas.Host

open Runs

/-! ### Errors -/

inductive Kind
  | interrupted
  | wouldBlock
  | connectionRefused
  | connectionReset
  | hostUnreachable
  | networkUnreachable
  | networkDown
  | brokenPipe
  | invalidData
  | other
deriving DecidableEq, Repr

structure IoError where
  kind : Kind
  rawOsError : Option ℤ
deriving DecidableEq, Repr

/-- What the standard library and the C library say about error codes. -/
structure Platform where
  /-- The kind of `from_raw_os_error`. -/
  kindOf : ℤ → Kind
  /-- The codes of `momentary`; none outside Unix. -/
  momentaryCodes : List ℤ

namespace Platform

def failed (P : Platform) (result : ℤ) : IoError :=
  let code : ℤ := if -result < 2 ^ 31 then -result else 5
  ⟨P.kindOf code, some code⟩

def momentary (P : Platform) (error : IoError) : Bool :=
  match error.rawOsError with
  | some code => P.momentaryCodes.contains code
  | none => false

def transient (P : Platform) (error : IoError) : Bool :=
  (match error.kind with
    | .interrupted | .wouldBlock | .connectionRefused | .connectionReset | .hostUnreachable | .networkUnreachable
    | .networkDown => true
    | _ => false) || P.momentary error

end Platform

def closed : IoError := ⟨.brokenPipe, none⟩

def invalidData : IoError := ⟨.invalidData, none⟩

/-! ### The device -/

def depth : ℕ := 64

inductive Reader
  /-- It waits for a buffer. -/
  | refilling
  /-- It is in the host's `recv`. -/
  | calling
  /-- It hands a packet to the reactor. -/
  | sending (packet : Bytes)
  /-- It reports an error, and returns. -/
  | failing (error : IoError)
  | exited
deriving DecidableEq

inductive Writer
  /-- It waits for a packet. -/
  | waiting
  /-- It is in the host's `send`. -/
  | calling (packet : Bytes)
  /-- It reports an error, and returns. -/
  | failing (error : IoError)
  | exited
deriving DecidableEq

def Reader.looping : Reader → Bool
  | .failing _ | .exited => false
  | _ => true

def Writer.looping : Writer → Bool
  | .failing _ | .exited => false
  | _ => true

structure Device where
  mtu : ℕ
  /-- The threads run from the first call on. -/
  started : Bool
  inbound : List (Except IoError Bytes)
  refill : ℕ
  outbound : List Bytes
  spare : ℕ
  reader : Reader
  writer : Writer

structure Link where
  device : Device
  /-- The error that the reactor returned. -/
  stopped : Option IoError
  deviceErrors : ℕ
  /-- Packets that the host's `recv` returned. -/
  offered : List Bytes
  /-- Packets that the reactor received. -/
  received : List Bytes
  /-- Packets that the device took from the reactor. -/
  sent : List Bytes
  /-- Packets that the host's `send` was called with. -/
  handed : List Bytes

inductive Op
  /-- The reader's next step; a call of `recv` returns the result, with the bytes in the buffer. -/
  | reader (result : ℤ) (buf : Bytes)
  /-- The writer's next step; a call of `send` returns the result. -/
  | writer (result : ℤ)
  /-- The reactor polls `recv`. -/
  | recv
  /-- The reactor's `to_device`; a full queue means that the budget ran out. -/
  | send (packet : Bytes)

variable (P : Platform)

def readInto (mtu : ℕ) (result : ℤ) (buf : Bytes) : Except IoError Bytes :=
  if result < 0 then .error (P.failed result)
  else if mtu < result.toNat then .error invalidData
  else .ok ((buf ++ List.replicate mtu 0).take result.toNat)

def writeAll (result : ℤ) : Except IoError Unit :=
  if result < 0 then .error (P.failed result) else .ok ()

namespace Link

def new (mtu : ℕ) : Link := ⟨⟨mtu, false, [], depth, [], depth, .refilling, .waiting⟩, none, 0, [], [], [], []⟩

variable (l : Link)

/-- A `blocking_send` on the inbound channel; nothing while the channel is full, and the thread is done when the
reactor is gone. -/
def push (message : Except IoError Bytes) : Option (List (Except IoError Bytes)) :=
  if l.device.inbound.length < depth then some (l.device.inbound ++ [message]) else none

def read (result : ℤ) (buf : Bytes) : Link :=
  match l.device.reader with
  | .refilling =>
    if 0 < l.device.refill then
      { l with device := { l.device with refill := l.device.refill - 1, reader := .calling } }
    else if l.stopped.isSome then { l with device := { l.device with reader := .exited } }
    else l
  | .calling =>
    match readInto P l.device.mtu result buf with
    | .ok [] => l
    | .ok packet =>
      { l with device := { l.device with reader := .sending packet }, offered := l.offered ++ [packet] }
    | .error error => { l with device := { l.device with reader := .failing error } }
  | .sending packet =>
    if l.stopped.isSome then { l with device := { l.device with reader := .exited } }
    else
      match l.push (.ok packet) with
      | some inbound => { l with device := { l.device with inbound := inbound, reader := .refilling } }
      | none => l
  | .failing error =>
    if l.stopped.isSome then { l with device := { l.device with reader := .exited } }
    else
      match l.push (.error error) with
      | some inbound => { l with device := { l.device with inbound := inbound, reader := .exited } }
      | none => l
  | .exited => l

def write (result : ℤ) : Link :=
  match l.device.writer with
  | .waiting =>
    match l.device.outbound with
    | packet :: outbound =>
      { l with
        device := { l.device with outbound := outbound, writer := .calling packet }
        handed := l.handed ++ [packet] }
    | [] => if l.stopped.isSome then { l with device := { l.device with writer := .exited } } else l
  | .calling _ =>
    match writeAll P result with
    | .ok () =>
      { l with device := { l.device with spare := min depth (l.device.spare + 1), writer := .waiting } }
    | .error error => { l with device := { l.device with writer := .failing error } }
  | .failing error =>
    if l.stopped.isSome then { l with device := { l.device with writer := .exited } }
    else
      match l.push (.error error) with
      | some inbound => { l with device := { l.device with inbound := inbound, writer := .exited } }
      | none => l
  | .exited => l

def onReceived : Except IoError Bytes → Link
  | .ok packet => { l with received := l.received ++ [packet] }
  | .error error =>
    if P.transient error then { l with deviceErrors := l.deviceErrors + 1 } else { l with stopped := some error }

def recv : Link :=
  match l.device.inbound with
  | .ok packet :: inbound =>
    let l := { l with device := { l.device with inbound := inbound } }
    if l.device.mtu < packet.length then l.onReceived P (.error invalidData)
    else
      { l with device := { l.device with refill := min depth (l.device.refill + 1) } }.onReceived P (.ok packet)
  | .error error :: inbound =>
    { l with device := { l.device with inbound := inbound } }.onReceived P (.error error)
  | [] =>
    if l.device.reader = .exited ∧ l.device.writer = .exited then l.onReceived P (.error closed) else l

def send (packet : Bytes) : Link :=
  let l := { l with device := { l.device with spare := l.device.spare - 1 } }
  if l.device.writer = .exited then
    if P.transient closed then { l with deviceErrors := l.deviceErrors + 1 } else { l with stopped := some closed }
  else if l.device.outbound.length < depth then
    { l with device := { l.device with outbound := l.device.outbound ++ [packet] }, sent := l.sent ++ [packet] }
  else { l with deviceErrors := l.deviceErrors + 1 }

def start : Link := { l with device := { l.device with started := true } }

def step : Op → Link
  | .reader result buf => if l.device.started then l.read P result buf else l
  | .writer result => if l.device.started then l.write P result else l
  | .recv => if l.stopped.isSome then l else l.start.recv P
  | .send packet => if l.stopped.isSome then l else l.start.send P packet

/-! ### What it takes to go on -/

structure Running (l : Link) : Prop where
  reader : l.device.reader.looping = true
  writer : l.device.writer.looping = true
  reactor : l.stopped = none

def packets (inbound : List (Except IoError Bytes)) : List Bytes :=
  inbound.filterMap fun message => match message with
    | .ok packet => some packet
    | .error _ => none

def inHand : List Bytes :=
  match l.device.reader with
  | .sending packet => [packet]
  | _ => []

/-- The tunnel goes on: every packet is on its way to the other side, in order. -/
structure Carries (l : Link) : Prop extends Running l where
  inward : l.offered = l.received ++ packets l.device.inbound ++ l.inHand
  outward : l.sent = l.handed ++ l.device.outbound

def Fails : Op → Prop
  | .reader result buf =>
    l.device.started = true ∧ l.device.reader = .calling ∧ ∃ error, readInto P l.device.mtu result buf = .error error
  | .writer result =>
    l.device.started = true ∧ (∃ packet, l.device.writer = .calling packet) ∧ ∃ error, writeAll P result = .error error
  | _ => False

/-- What every step keeps while no call fails: nothing but packets of the right size goes to the reactor. -/
structure Healthy (l : Link) : Prop extends Carries l where
  inbound : ∀ message ∈ l.device.inbound, ∃ packet : Bytes, message = .ok packet ∧ packet.length ≤ l.device.mtu
  sending : ∀ packet, l.device.reader = .sending packet → packet.length ≤ l.device.mtu

theorem healthy_new (mtu : ℕ) : (new mtu).Healthy where
  reader := rfl
  writer := rfl
  reactor := rfl
  inward := rfl
  outward := rfl
  inbound := by simp [new]
  sending := by simp [new]

theorem length_readInto (h : readInto P mtu result buf = .ok packet) : packet.length ≤ mtu := by
  unfold readInto at h
  split_ifs at h with hnegative hlarge
  cases h
  rw [List.length_take]
  omega

variable {P} {l : Link}

theorem Healthy.read (h : l.Healthy) (hsta : l.device.started = true)
    (hok : ¬ l.Fails P (.reader result buf)) : (l.read P result buf).Healthy := by
  have hloop := h.reader
  have hinw := h.inward
  unfold Link.read
  cases hrd : l.device.reader with
  | refilling =>
    dsimp only
    rw [inHand, hrd] at hinw
    split_ifs with hrefill hstop
    · exact ⟨⟨⟨rfl, h.writer, h.reactor⟩, hinw, h.outward⟩, h.inbound, fun _ hs => (nomatch hs)⟩
    · rw [h.reactor] at hstop
      cases hstop
    · exact h
  | calling =>
    rw [inHand, hrd] at hinw
    rcases hread : readInto P l.device.mtu result buf with error | pkt
    · exact absurd ⟨hsta, hrd, error, hread⟩ hok
    have hlen := length_readInto P hread
    rcases pkt with _ | ⟨byte, pkt⟩
    · exact h
    refine ⟨⟨⟨rfl, h.writer, h.reactor⟩, ?_, h.outward⟩, h.inbound, ?_⟩
    · simp [inHand, hinw]
    · intro pkt' hs
      cases hs
      exact hlen
  | sending pkt =>
    have hlen := h.sending pkt hrd
    dsimp only
    rw [inHand, hrd] at hinw
    rw [if_neg (by simp [h.reactor])]
    unfold push
    split_ifs
    · refine ⟨⟨⟨rfl, h.writer, h.reactor⟩, ?_, h.outward⟩, ?_, fun _ hs => (nomatch hs)⟩
      · simpa [inHand, packets] using hinw
      · intro msg hmem
        obtain hmem | hmem := List.mem_append.mp hmem
        · exact h.inbound msg hmem
        · exact ⟨pkt, List.mem_singleton.mp hmem, hlen⟩
    · exact h
  | failing error | exited =>
    rw [hrd] at hloop
    cases hloop

theorem Healthy.write (h : l.Healthy) (hsta : l.device.started = true)
    (hok : ¬ l.Fails P (.writer result)) : (l.write P result).Healthy := by
  have hloop := h.writer
  have houtw := h.outward
  unfold Link.write
  cases hwr : l.device.writer with
  | waiting =>
    rcases houtbound : l.device.outbound with _ | ⟨pkt, outbound⟩
    · rw [if_neg (by simp [h.reactor])]
      exact h
    rw [houtbound] at houtw
    refine ⟨⟨⟨h.reader, rfl, h.reactor⟩, h.inward, ?_⟩, h.inbound, h.sending⟩
    simpa using houtw
  | calling pkt =>
    cases hwrite : writeAll P result with
    | error error => exact absurd ⟨hsta, ⟨pkt, hwr⟩, error, hwrite⟩ hok
    | ok _ => exact ⟨⟨⟨h.reader, rfl, h.reactor⟩, h.inward, h.outward⟩, h.inbound, h.sending⟩
  | failing error | exited =>
    rw [hwr] at hloop
    cases hloop

theorem Healthy.recv (h : l.Healthy) : (l.recv P).Healthy := by
  have hinw := h.inward
  unfold Link.recv
  cases hinb : l.device.inbound with
  | nil =>
    rw [if_neg]
    · exact h
    · rintro ⟨hexited, -⟩
      have hloop := h.reader
      rw [hexited] at hloop
      cases hloop
  | cons msg inbound =>
    obtain ⟨pkt, rfl, hlen⟩ := h.inbound msg (by simp [hinb])
    dsimp only
    rw [if_neg (Nat.not_lt.mpr hlen)]
    refine ⟨⟨{ h with }, ?_, h.outward⟩, ?_, h.sending⟩
    · rw [hinb] at hinw
      simpa [packets, onReceived, inHand] using hinw
    · intro msg hmem
      exact h.inbound msg (by rw [hinb]; exact List.mem_cons_of_mem _ hmem)

theorem Healthy.send (h : l.Healthy) (pkt : Bytes) : (l.send P pkt).Healthy := by
  have houtw := h.outward
  unfold Link.send
  rw [if_neg]
  · split_ifs
    · refine ⟨⟨{ h with }, h.inward, ?_⟩, h.inbound, h.sending⟩
      simp [houtw]
    · exact ⟨⟨{ h with }, h.inward, h.outward⟩, h.inbound, h.sending⟩
  · intro hexited
    have hloop := h.writer
    rw [hexited] at hloop
    cases hloop

theorem Healthy.start (h : l.Healthy) : l.start.Healthy :=
  ⟨⟨{ h with }, h.inward, h.outward⟩, h.inbound, h.sending⟩

theorem Healthy.step (h : l.Healthy) (hok : ¬ l.Fails P op) : (l.step P op).Healthy := by
  cases op with
  | reader res buf =>
    unfold Link.step
    dsimp only
    split_ifs with hsta
    · exact h.read hsta hok
    · exact h
  | writer res =>
    unfold Link.step
    dsimp only
    split_ifs with hsta
    · exact h.write hsta hok
    · exact h
  | recv =>
    unfold Link.step
    rw [if_neg (by simp [h.reactor])]
    exact h.start.recv
  | send pkt =>
    unfold Link.step
    dsimp only
    rw [if_neg (by simp [h.reactor])]
    exact h.start.send pkt

/-! ### A failed call -/

def Broken (l : Link) : Prop := l.device.reader.looping = false ∨ l.device.writer.looping = false

theorem onReceived_device : (l.onReceived P result).device = l.device := by
  unfold onReceived
  split
  · rfl
  · split_ifs <;> rfl

theorem recv_threads : (l.recv P).device.reader = l.device.reader ∧ (l.recv P).device.writer = l.device.writer := by
  unfold recv
  split
  · dsimp only
    split_ifs
    · exact ⟨rfl, rfl⟩
    · exact ⟨rfl, rfl⟩
  · rw [onReceived_device]
    exact ⟨rfl, rfl⟩
  · split_ifs
    · exact ⟨rfl, rfl⟩
    · exact ⟨rfl, rfl⟩

theorem send_threads :
    (l.send P packet).device.reader = l.device.reader ∧ (l.send P packet).device.writer = l.device.writer := by
  unfold send
  dsimp only
  split_ifs <;> exact ⟨rfl, rfl⟩

theorem write_reader : (l.write P result).device.reader = l.device.reader := by
  unfold write
  split
  · split
    · rfl
    · split_ifs <;> rfl
  · split <;> rfl
  · split_ifs
    · rfl
    · split <;> rfl
  · rfl

theorem read_writer : (l.read P result buf).device.writer = l.device.writer := by
  unfold read
  split
  · split_ifs <;> rfl
  · split <;> rfl
  · split_ifs
    · rfl
    · split <;> rfl
  · split_ifs
    · rfl
    · split <;> rfl
  · rfl

theorem read_left (h : l.device.reader.looping = false) (res : ℤ) (buf : Bytes) :
    (l.read P res buf).device.reader.looping = false := by
  unfold read
  split <;> rename_i hrd <;> rw [hrd] at h
  · cases h
  · cases h
  · cases h
  · split_ifs
    · rfl
    · split
      · rfl
      · rwa [hrd]
  · rwa [hrd]

theorem write_left (h : l.device.writer.looping = false) (res : ℤ) :
    (l.write P res).device.writer.looping = false := by
  unfold write
  split <;> rename_i hwr <;> rw [hwr] at h
  · cases h
  · cases h
  · split_ifs
    · rfl
    · split
      · rfl
      · rwa [hwr]
  · rwa [hwr]

theorem Broken.step (h : l.Broken) (op : Op) : (l.step P op).Broken := by
  unfold Link.step
  cases op with
  | reader res buf =>
    dsimp only
    split_ifs
    · obtain hrd | hwr := h
      · exact .inl (read_left hrd res buf)
      · exact .inr (by rwa [read_writer])
    · exact h
  | writer res =>
    dsimp only
    split_ifs
    · obtain hrd | hwr := h
      · exact .inl (by rwa [write_reader])
      · exact .inr (write_left hwr res)
    · exact h
  | recv =>
    dsimp only
    split_ifs
    · exact h
    · unfold Broken
      rwa [(recv_threads).1, (recv_threads).2]
  | send pkt =>
    dsimp only
    split_ifs
    · exact h
    · unfold Broken
      rwa [(send_threads).1, (send_threads).2]

/-- **A failed call takes its thread out of the loop**, whatever the error. -/
theorem broken_of_fails (h : l.Fails P op) : (l.step P op).Broken := by
  cases op with
  | reader res buf =>
    obtain ⟨hsta, hrd, error, hread⟩ := h
    refine .inl ?_
    simp only [Link.step, hsta, Link.read, hrd, hread]
    rfl
  | writer res =>
    obtain ⟨hsta, ⟨pkt, hwr⟩, error, hwrite⟩ := h
    refine .inr ?_
    simp only [Link.step, hsta, Link.write, hwr, hwrite]
    rfl
  | recv | send pkt => exact h.elim

theorem broken_run (mtu : ℕ) (ops : List Op) :
    Along (step P) (fun l op => ¬ l.Fails P op) (new mtu) ops ∨ (run (step P) (new mtu) ops).Broken := by
  refine run_history (G := fun _ _ => True) (I := fun es (l : Link) =>
    Along (step P) (fun l op => ¬ l.Fails P op) (new mtu) es ∨ l.Broken) (.inl trivial) ?_ ops
    (along_of_mem ops _ fun _ _ _ => trivial)
  rintro es op hpre -
  obtain halong | hbrk := hpre
  · by_cases hfails : (run (step P) (new mtu) es).Fails P op
    · exact .inr (broken_of_fails hfails)
    · exact .inl ((along_snoc _ es op).mpr ⟨halong, hfails⟩)
  · exact .inr (hbrk.step op)

variable (P)

/-- **The tunnel goes on, with every packet in order, exactly while no call of the host has failed.** -/
theorem carries_iff (mtu : ℕ) (ops : List Op) : (run (step P) (new mtu) ops).Carries ↔
      Along (step P) (fun l op => ¬ l.Fails P op) (new mtu) ops := by
  constructor
  · intro hcar
    obtain halong | hbrk := broken_run mtu ops
    · exact halong
    obtain hrd | hwr := hbrk
    · rw [hcar.reader] at hrd
      cases hrd
    · rw [hcar.writer] at hwr
      cases hwr
  · intro halong
    exact (run_invariant (I := Healthy) (fun l op h hok => h.step hok) ops _ (healthy_new mtu) halong).toCarries

/-! ### Errors of one packet -/

def linux : Platform := ⟨fun code => if code = 4 then .interrupted else .other, [105, 12, 90]⟩

/-- The host's `recv` is interrupted; then it offers a packet, which nobody asks for. -/
def interruptedRead : List Op := [.recv, .reader 0 [], .reader (-4) [], .reader 0 [], .recv, .reader 1 [0x45], .recv]

/-- The host's `send` has no buffer for a packet; then the reactor sends another. -/
def refusedWrite : List Op := [.send [0x45], .writer 0, .writer (-105), .writer 0, .recv, .send [0x46]]

/-- **Errors that the reactor calls transient end the tunnel**: one makes it deaf, the other stops it. -/
theorem ended_by_transient_errors :
    linux.transient (linux.failed (-4)) = true ∧ linux.transient (linux.failed (-105)) = true ∧
      (run (step linux) (new 1500) interruptedRead).device.reader = .exited ∧
      (run (step linux) (new 1500) interruptedRead).received = [] ∧
      (run (step linux) (new 1500) refusedWrite).stopped = some closed := by
  decide +kernel

end Link

end Boreas.Host
