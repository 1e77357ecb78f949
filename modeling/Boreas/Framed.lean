import Boreas.Codec

/-! # Framed streams

`Framed` (sansio.rs): a codec over a byte stream.  The loops of `poll_read` and `poll_write` are taken turn by turn
(`turn`, `writeOut`), with more turns at hand than they can need.  The inner stream is a script of answers, one for
each call. -/

namespace Boreas

open List

inductive Poll (α : Type)
  | ready (value : α)
  | pending
deriving DecidableEq, Repr

inductive StreamError
  | invalidData (error : ProxyError)
  | writeZero
  | inner (kind : ErrorKind)
deriving DecidableEq, Repr

/-! ### The inner stream -/

inductive ReadAnswer
  | ready (bytes : Bytes)
  | pending
  | error (kind : ErrorKind)
deriving DecidableEq, Repr

inductive WriteAnswer
  | accept (bytes : ℕ)
  | pending
  | error (kind : ErrorKind)
deriving DecidableEq, Repr

/-- The inner stream: the answers it will give to reads, to writes, and to flushing or shutting down, and what it has
been given to send. -/
structure Inner where
  reads : List ReadAnswer
  writes : List WriteAnswer
  flushes : List (Poll (Except StreamError Unit))
  sent : Bytes
deriving Repr

def ReadAnswer.bytes : ReadAnswer → Bytes
  | .ready bytes => bytes
  | _ => []

namespace Inner

variable (t : Inner)

def unread : Bytes := t.reads.flatMap ReadAnswer.bytes

def pollRead (room : ℕ) : Inner × Poll (Except StreamError Bytes) :=
  match t.reads with
  | [] => (t, .pending)
  | .pending :: reads => ({ t with reads := reads }, .pending)
  | .error kind :: reads => ({ t with reads := reads }, .ready (.error (.inner kind)))
  | .ready bytes :: reads =>
    if bytes.length ≤ room then ({ t with reads := reads }, .ready (.ok bytes))
    else ({ t with reads := .ready (bytes.drop room) :: reads }, .ready (.ok (bytes.take room)))

def pollWrite (buf : Bytes) : Inner × Poll (Except StreamError ℕ) :=
  match t.writes with
  | [] => (t, .pending)
  | .pending :: writes => ({ t with writes := writes }, .pending)
  | .error kind :: writes => ({ t with writes := writes }, .ready (.error (.inner kind)))
  | .accept n :: writes =>
    ({ t with writes := writes, sent := t.sent ++ buf.take n }, .ready (.ok (min n buf.length)))

def pollFlush : Inner × Poll (Except StreamError Unit) :=
  match t.flushes with
  | [] => (t, .pending)
  | answer :: flushes => ({ t with flushes := flushes }, answer)

end Inner

/-! ### The framed stream -/

def framedChunk : ℕ := 16 * 1024

/-- The writing side. -/
structure Outgoing where
  /-- What the inner stream has not taken of the frame: `pending` from `pending_at` on. -/
  pending : Bytes
  taken : ℕ
  writes : Writes

structure Framed (C : Codec) extends Outgoing where
  codec : C.State
  coded : Bytes
  codedAt : ℕ
  plain : Bytes
  plainAt : ℕ
  transparent : Bool
  codedAt_le : codedAt ≤ coded.length
  /-- A drained buffer is cleared. -/
  plainAt_lt : plain = [] ∧ plainAt = 0 ∨ plainAt < plain.length
  /-- A transparent stream has nothing to decode. -/
  coded_eq_nil : transparent = true → coded = []

namespace Framed

variable {C : Codec}

variable (codec : C.State)

def withPrefix (coded : Bytes) : Framed C where
  codec := codec
  coded := coded
  codedAt := 0
  plain := []
  plainAt := 0
  transparent := false
  pending := []
  taken := 0
  writes := C.writes codec
  codedAt_le := Nat.zero_le _
  plainAt_lt := .inl ⟨rfl, rfl⟩
  coded_eq_nil h := by cases h

def new : Framed C := withPrefix codec []

/-! ### Reading -/

variable (f : Framed C)

def coming : Bytes := f.coded.drop f.codedAt

def decodedAhead : Bytes := f.plain.drop f.plainAt

theorem plainAt_le : f.plainAt ≤ f.plain.length := by
  rcases f.plainAt_lt with ⟨-, hat⟩ | hlt
  · omega
  · omega

def drain (room : ℕ) : Option (Framed C × Bytes) :=
  if f.decodedAhead = [] then none
  else
    let moved := min f.decodedAhead.length room
    if h : f.plainAt + moved = f.plain.length then
      some ({ f with plain := [], plainAt := 0, plainAt_lt := .inl ⟨rfl, rfl⟩ }, f.decodedAhead.take moved)
    else
      some
        ({ f with
            plainAt := f.plainAt + moved
            plainAt_lt := .inr (by
              have hle := f.plainAt_le
              have hmoved : moved ≤ f.plain.length - f.plainAt := by
                rw [← length_drop]
                exact Nat.min_le_left _ _
              omega) },
          f.decodedAhead.take moved)

def decoded (out : Bytes) : Framed C :=
  { f with
    codec := codec
    plain := f.plain ++ out
    plainAt_lt := by
      rw [length_append, append_eq_nil_iff]
      rcases f.plainAt_lt with ⟨hplain, hat⟩ | hlt
      · rcases out.eq_nil_or_concat' with rfl | ⟨_, _, rfl⟩
        · exact .inl ⟨⟨hplain, rfl⟩, hat⟩
        · exact .inr (by simp only [hat, length_append, length_singleton]; omega)
      · exact .inr (by omega) }

def switch (out rest : Bytes) : Framed C :=
  { (f.decoded codec out).decoded codec rest with
    coded := []
    codedAt := 0
    transparent := true
    codedAt_le := le_rfl
    coded_eq_nil := fun _ => rfl }

def advance (consumed : ℕ) (h : consumed ≤ f.coming.length) : Framed C :=
  if f.coded.length ≤ (f.codedAt + consumed) * 2 then
    { f with
      coded := f.coded.drop (f.codedAt + consumed)
      codedAt := 0
      codedAt_le := Nat.zero_le _
      coded_eq_nil := fun ht => by rw [f.coded_eq_nil ht, drop_nil] }
  else
    { f with
      codedAt := f.codedAt + consumed
      codedAt_le := by
        rw [coming, length_drop] at h
        have hle := f.codedAt_le
        omega }

theorem advance_transparent (used : ℕ) (h : used ≤ f.coming.length) :
    (f.advance used h).transparent = f.transparent := by
  unfold advance
  split_ifs <;> rfl

def fill (h : f.transparent = false) (inner : Inner) :
    Framed C × Inner × Option (Poll (Except StreamError Bytes)) :=
  match inner.pollRead framedChunk with
  | (inner, .ready (.ok [])) => (f, inner, some (.ready (.ok [])))
  | (inner, .ready (.ok filled)) =>
    ({ f with
        coded := f.coded ++ filled
        codedAt_le := by
          rw [length_append]
          exact Nat.le_add_right_of_le f.codedAt_le
        coded_eq_nil := fun ht => by rw [h] at ht; cases ht },
      inner, none)
  | (inner, .ready (.error e)) => (f, inner, some (.ready (.error e)))
  | (inner, .pending) => (f, inner, some .pending)

theorem transparent_eq_false {f : Framed C} (h : ¬ (f.transparent = true ∧ f.codedAt = f.coded.length)) :
    f.transparent = false := by
  by_contra ht
  rw [Bool.not_eq_false] at ht
  have hle := f.codedAt_le
  rw [f.coded_eq_nil ht] at h hle
  exact h ⟨ht, Nat.le_zero.mp hle⟩

def turn (inner : Inner) (room : ℕ) : Framed C × Inner × Option (Poll (Except StreamError Bytes)) :=
  match f.drain room with
  | some (f, bytes) => (f, inner, some (.ready (.ok bytes)))
  | none =>
    if h : f.transparent = true ∧ f.codedAt = f.coded.length then
      let (inner, answer) := inner.pollRead room
      (f, inner, some answer)
    else if f.codedAt < f.coded.length then
      match C.decode f.codec f.coming with
      | (codec, out, .error e) => (f.decoded codec out, inner, some (.ready (.error (.invalidData e))))
      | (codec, out, .ok (.transparent rest)) => (f.switch codec out rest, inner, none)
      | (codec, out, .ok (.framed rest)) =>
        let consumed := (Decode.framed rest).consumed f.coming
        let g := (f.decoded codec out).advance consumed (Nat.sub_le _ _)
        if 0 < consumed ∨ g.plain ≠ [] then (g, inner, none)
        else g.fill ((advance_transparent _ _ _).trans (transparent_eq_false h)) inner
    else f.fill (transparent_eq_false h) inner

def pollReadWithin : ℕ → Framed C → Inner → ℕ → Framed C × Inner × Poll (Except StreamError Bytes)
  | 0, f, inner, _ => (f, inner, .pending)
  | turns + 1, f, inner, room =>
    match f.turn inner room with
    | (f, inner, some answer) => (f, inner, answer)
    | (f, inner, none) => pollReadWithin turns f inner room

/-- More turns than a read takes: each consumes a byte of what was received, or receives one. -/
def turns (inner : Inner) : ℕ := 2 * inner.unread.length + f.coming.length + 1

def pollRead (inner : Inner) (room : ℕ) : Framed C × Inner × Poll (Except StreamError Bytes) :=
  pollReadWithin (f.turns inner) f inner room

/-! ### Writing -/

def beginFrame (buf : Bytes) : Framed C × Option (Except StreamError ℕ) :=
  if f.pending = [] then
    let take := min buf.length (C.maxPayload f.codec)
    if take = 0 then (f, some (.ok 0))
    else
      match C.encode f.codec (buf.take take) with
      | (codec, out, .error e) => ({ f with codec := codec, pending := out }, some (.error (.invalidData e)))
      | (codec, out, .ok ()) => ({ f with codec := codec, pending := out, taken := take }, none)
  else (f, none)

/-- The loop of `poll_write`: what is left of the frame, and the answer unless all of it was taken. -/
def writeOut : ℕ → Bytes → Inner → Bytes × Inner × Option (Poll (Except StreamError ℕ))
  | 0, pending, inner => (pending, inner, some .pending)
  | turns + 1, pending, inner =>
    if pending = [] then ([], inner, none)
    else
      match inner.pollWrite pending with
      | (inner, .ready (.ok 0)) => (pending, inner, some (.ready (.error .writeZero)))
      | (inner, .ready (.ok (written + 1))) => writeOut turns (pending.drop (written + 1)) inner
      | (inner, .ready (.error e)) => (pending, inner, some (.ready (.error e)))
      | (inner, .pending) => (pending, inner, some .pending)

def pollWrite (f : Framed C) (inner : Inner) (buf : Bytes) : Framed C × Inner × Poll (Except StreamError ℕ) :=
  if f.writes = .verbatim then
    let (inner, answer) := inner.pollWrite buf
    (f, inner, answer)
  else
    match f.beginFrame buf with
    | (f, some answer) => (f, inner, .ready answer)
    | (f, none) =>
      let (pending, inner, stopped) := writeOut (f.pending.length + 1) f.pending inner
      ({ f with pending := pending }, inner, stopped.getD (.ready (.ok f.taken)))

def accepted : Poll (Except StreamError ℕ) → ℕ
  | .ready (.ok n) => n
  | _ => 0

theorem pollInner_spec {t : Inner} (h : t.pollWrite buf = (t', answer)) :
    t'.sent = t.sent ++ buf.take (accepted answer) ∧ accepted answer ≤ buf.length ∧ t'.reads = t.reads := by
  unfold Inner.pollWrite at h
  split at h
  · cases h
    exact ⟨(append_nil _).symm, Nat.zero_le _, rfl⟩
  · cases h
    exact ⟨(append_nil _).symm, Nat.zero_le _, rfl⟩
  · cases h
    exact ⟨(append_nil _).symm, Nat.zero_le _, rfl⟩
  · cases h
    exact ⟨congrArg (t.sent ++ ·) take_eq_take_min, Nat.min_le_right _ _, rfl⟩

theorem writeOut_spec : ∀ (n : ℕ) {pending left : Bytes} {t t' : Inner} {stopped : Option (Poll (Except StreamError ℕ))},
    pending.length < n → writeOut n pending t = (left, t', stopped) →
      t'.sent ++ left = t.sent ++ pending ∧ t'.reads = t.reads ∧
        (left = [] ∧ stopped = none ∨ left ≠ [] ∧ ∃ answer, stopped = some answer ∧ accepted answer = 0) := by
  intro n
  induction n with
  | zero => exact fun hn => absurd hn (Nat.not_lt_zero _)
  | succ n ih =>
    intro pending left t t' stopped hn h
    unfold writeOut at h
    split_ifs at h with hdone
    · cases h
      exact ⟨by rw [hdone], rfl, .inl ⟨rfl, rfl⟩⟩
    rcases hwrite : t.pollWrite pending with ⟨t₁, answer⟩
    obtain ⟨hsent, -, hreads⟩ := pollInner_spec hwrite
    rw [hwrite] at h
    match answer, h, hsent with
    | .ready (.ok 0), h, hsent | .ready (.error e), h, hsent | .pending, h, hsent =>
      cases h
      exact ⟨congrArg (· ++ pending) (hsent.trans (append_nil _)), hreads, .inr ⟨hdone, _, rfl, rfl⟩⟩
    | .ready (.ok (written + 1)), h, hsent =>
      have hless : (pending.drop (written + 1)).length < n := by
        have hpos := length_pos_iff.mpr hdone
        rw [length_drop]
        omega
      obtain ⟨hsent', hreads', hleft⟩ := ih hless h
      refine ⟨?_, hreads'.trans hreads, hleft⟩
      rw [hsent', hsent, accepted, append_assoc, take_append_drop]

end Framed

/-! ### Calls -/

inductive Framed.Op
  | read (room : ℕ)
  | write (buf : Bytes)
  | flush
  | shutdown
deriving Repr

inductive Framed.Event
  | read (room : ℕ) (answer : Poll (Except StreamError Bytes))
  | write (buf : Bytes) (answer : Poll (Except StreamError ℕ))
  | passed (answer : Poll (Except StreamError Unit))
deriving Repr

structure Stream (C : Codec) where
  framed : Framed C
  inner : Inner

def Stream.step {C : Codec} (s : Stream C) : Framed.Op → Stream C × Framed.Event
  | .read room =>
    let (framed, inner, answer) := s.framed.pollRead s.inner room
    (⟨framed, inner⟩, .read room answer)
  | .write buf =>
    let (framed, inner, answer) := s.framed.pollWrite s.inner buf
    (⟨framed, inner⟩, .write buf answer)
  | .flush =>
    let (inner, answer) := s.inner.pollFlush
    ({ s with inner := inner }, .passed answer)
  | .shutdown =>
    let (inner, answer) := s.inner.pollFlush
    ({ s with inner := inner }, .passed answer)

end Boreas
