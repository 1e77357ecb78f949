import Boreas.Wire

/-! # The bridge between a driver and a task

bridge.rs: a bounded channel for each direction, with the driver's `Plumbing` at one end and the task's
`BridgedStream` at the other.  `Bridge` is both halves of one `pair`; each operation on a channel or on the reset flag
is one step. -/

namespace Boreas.L4

structure Bridge where
  /-- Chunks on their way to the task. -/
  inbound : List Bytes
  /-- The driver holds the sender of them. -/
  toTask : Bool
  /-- The driver has said that the peer reset. -/
  reset : Bool
  /-- The task's unconsumed rest of a chunk. -/
  pending : Bytes
  /-- The task holds the stream. -/
  reading : Bool
  /-- Chunks on their way to the driver. -/
  outbound : List Bytes
  /-- The task's write half is open. -/
  writing : Bool
  /-- The driver holds the receiver of them. -/
  fromTask : Bool
  /-- The driver's rest of a chunk that the transport did not take whole. -/
  pendingOut : Option Bytes
  /-- The driver has closed the connection for the task. -/
  finished : Bool
deriving DecidableEq

inductive ReadResult
  | data (bytes : Bytes)
  | endOfStream
  | connectionReset
  | pending
deriving DecidableEq

inductive WriteResult
  | written (count : ℕ)
  | brokenPipe
  | pending
deriving DecidableEq

def ReadResult.bytes : ReadResult → Bytes
  | .data bytes => bytes
  | _ => []

namespace Bridge

def chunk : ℕ := 16 * 1024

def depth : ℕ := 8

def pair : Bridge := ⟨[], true, false, [], true, [], true, true, none, false⟩

/-! ### The driver's half -/

variable (b : Bridge)

def reserves : Bool := b.toTask && b.reading && b.inbound.length < depth

def deliver (bytes : Bytes) : Bridge := { b with inbound := b.inbound ++ [bytes] }

def dropSender : Bridge := { b with toTask := false }

/-- `Plumbing::reset`: the flag is up before the sender goes. -/
def markReset : Bridge := { b with reset := true, toTask := false }

def dropPlumbing : Bridge := { b with toTask := false, fromTask := false }

/-! ### The task's half -/

/-- The loop at the head of `poll_read`: empty chunks carry nothing. -/
def nextChunk : Bytes → List Bytes → Bytes × List Bytes
  | [], chunk :: inbound => nextChunk chunk inbound
  | pending, inbound => (pending, inbound)

/-- `poll_read` with room for so many bytes.  The flag is read after the channel; the driver sets it first. -/
def pollRead (room : ℕ) : Bridge × ReadResult :=
  match nextChunk b.pending b.inbound with
  | ([], inbound) =>
    ({ b with pending := [], inbound := inbound },
      if b.toTask then .pending else if b.reset then .connectionReset else .endOfStream)
  | (pending, inbound) =>
    ({ b with pending := pending.drop room, inbound := inbound }, .data (pending.take room))

def pollWrite (bytes : Bytes) : Bridge × WriteResult :=
  if b.writing = false then (b, .brokenPipe)
  else if bytes = [] then (b, .written 0)
  else if b.fromTask = false then (b, .brokenPipe)
  else if b.outbound.length < depth then
    ({ b with outbound := b.outbound ++ [bytes.take chunk] }, .written (min bytes.length chunk))
  else (b, .pending)

def pollShutdown : Bridge := { b with writing := false }

def dropStream : Bridge := { b with reading := false, writing := false }

/-! ### What a read returns -/

def unread : Bytes := b.pending ++ b.inbound.flatten

theorem nextChunk_flatten (pending : Bytes) (inbound : List Bytes) :
    (nextChunk pending inbound).1 ++ (nextChunk pending inbound).2.flatten = pending ++ inbound.flatten := by
  induction inbound generalizing pending with
  | nil => cases pending <;> rfl
  | cons chunk inbound ih =>
    cases pending with
    | nil => simpa [nextChunk] using ih chunk
    | cons byte pending => rfl

theorem nextChunk_eq_nil {pending : Bytes} {inbound : List Bytes} (h : (nextChunk pending inbound).1 = []) :
    (nextChunk pending inbound).2 = [] := by
  induction inbound generalizing pending with
  | nil => cases pending <;> rfl
  | cons chunk inbound ih =>
    cases pending with
    | nil => exact ih h
    | cons byte pending => cases h

theorem nextChunk_eq_nil_iff : (nextChunk b.pending b.inbound).1 = [] ↔ b.unread = [] := by
  rw [unread, ← nextChunk_flatten]
  constructor
  · intro h
    rw [h, nextChunk_eq_nil h]
    rfl
  · intro h
    exact (List.append_eq_nil_iff.mp h).1

theorem pollRead_unread (room : ℕ) : (b.pollRead room).2.bytes ++ (b.pollRead room).1.unread = b.unread := by
  have hflat := nextChunk_flatten b.pending b.inbound
  unfold pollRead
  rcases hnext : nextChunk b.pending b.inbound with ⟨pending, inbound⟩
  rw [hnext] at hflat
  rcases pending with _ | ⟨byte, pending⟩
  · have hbytes : ∀ c d : Bool, (if c then ReadResult.pending else if d then .connectionReset
        else .endOfStream).bytes = [] := by decide
    simp only [hbytes]
    exact hflat
  show List.take room (byte :: pending) ++ (List.drop room (byte :: pending) ++ inbound.flatten) = b.unread
  rw [← List.append_assoc, List.take_append_drop]
  exact hflat

theorem pollRead_of_unread {b : Bridge} (h : b.unread ≠ []) (room : ℕ) :
    ∃ bytes, (b.pollRead room).2 = .data bytes := by
  unfold pollRead
  rcases hnext : nextChunk b.pending b.inbound with ⟨pending, inbound⟩
  cases pending with
  | nil => exact absurd ((nextChunk_eq_nil_iff b).mp (by rw [hnext])) h
  | cons byte pending => exact ⟨_, rfl⟩

/-- **After the last byte, a read returns the end that the driver has announced.** -/
theorem pollRead_of_drained {b : Bridge} (h : b.unread = []) :
    (b.pollRead room).2 = if b.toTask then .pending else if b.reset then .connectionReset else .endOfStream := by
  unfold pollRead
  rcases hnext : nextChunk b.pending b.inbound with ⟨pending, inbound⟩
  have hnil := (nextChunk_eq_nil_iff b).mpr h
  rw [hnext] at hnil
  subst hnil
  rfl

theorem pollRead_keeps (room : ℕ) :
    (b.pollRead room).1 = { b with pending := (b.pollRead room).1.pending, inbound := (b.pollRead room).1.inbound } := by
  unfold pollRead
  split <;> rfl

theorem unread_deliver (bytes : Bytes) : (b.deliver bytes).unread = b.unread ++ bytes := by
  simp [unread, deliver]

end Bridge

end Boreas.L4
