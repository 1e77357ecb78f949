import Boreas.FramedRead

/-! # Writing a framed stream

When the inner stream is not ready the frame of `poll_write` stays pending, and the next call answers with what the
call that began it had taken, whatever buffer it is given itself.  The answers are true (`truthful_run`) as long as a
caller comes back with a buffer that begins with what was taken (`Resumes`).  What is sent and pending is the encoding
of the payloads that were taken. -/

namespace Boreas.Framed

open List Runs

variable {C : Codec} {f f' : Framed C} {t t' : Inner} {answer : Poll (Except StreamError ℕ)}

/-! ### Frames -/

/-- What a write takes from its buffer: as much as makes a frame if it begins one, and what the inner stream accepted
if it is verbatim. -/
def payload (f : Framed C) (buf : Bytes) (answer : Poll (Except StreamError ℕ)) : Bytes :=
  if f.writes = .verbatim then buf.take (accepted answer)
  else if f.pending = [] ∧ (C.encode f.codec (buf.take (C.maxPayload f.codec))).2.2.isOk then
    buf.take (C.maxPayload f.codec)
  else []

/-- What a payload is on the wire. -/
def wire (f : Framed C) (payload : Bytes) : Bytes :=
  if f.writes = .verbatim ∨ payload = [] then payload else (C.encode f.codec payload).2.1

theorem payload_isPrefix (f : Framed C) (buf : Bytes) (answer : Poll (Except StreamError ℕ)) :
    f.payload buf answer <+: buf := by
  unfold payload
  split_ifs
  · exact take_prefix _ _
  · exact take_prefix _ _
  · exact nil_prefix

/-- The length of the payload that a write is about. -/
def begun (f : Framed C) (payload : Bytes) : ℕ := if f.pending = [] then payload.length else f.taken

theorem wire_nil (f : Framed C) : f.wire [] = [] := if_pos (.inr rfl)

theorem beginFrame_spec (hfr : f.writes = .framed) (h : f.beginFrame buf = (f', stopped)) (answer) :
    f'.writes = .framed ∧ f'.pending = f.pending ++ f.wire (f.payload buf answer) ∧
      (f.pending ≠ [] → f.payload buf answer = []) ∧
      stopped.elim (f'.taken = f.begun (f.payload buf answer)) fun stopped =>
        f'.pending = [] ∧ accepted (.ready stopped) = f.begun (f.payload buf answer) := by
  have hpay : f.payload buf answer = if f.pending = [] ∧ (C.encode f.codec (buf.take (C.maxPayload f.codec))).2.2.isOk
      then buf.take (C.maxPayload f.codec) else [] := by
    rw [payload, if_neg (by rw [hfr]; exact Writes.noConfusion)]
  have htake : buf.take (min buf.length (C.maxPayload f.codec)) = buf.take (C.maxPayload f.codec) := by
    rw [min_comm, ← take_eq_take_min]
  unfold beginFrame at h
  dsimp only at h
  rw [htake] at h
  split_ifs at h with hidle hzero
  · cases h
    have hnil : f.payload buf answer = [] := by rw [hpay, ← htake, hzero, take_zero, ite_self]
    rw [hnil, wire_nil, append_nil]
    exact ⟨hfr, rfl, fun _ => rfl, hidle, (if_pos hidle).symm⟩
  · rcases hencode : C.encode f.codec (buf.take (C.maxPayload f.codec)) with ⟨codec, out, e | _⟩
    · rw [hencode] at h hpay
      cases h
      have hnil : f.payload buf answer = [] := by simpa [Except.isOk, Except.toBool] using hpay
      rw [hnil, wire_nil, hidle]
      exact ⟨hfr, C.encode_error hencode, fun _ => rfl, C.encode_error hencode, (if_pos hidle).symm⟩
    · rw [hencode, if_pos ⟨hidle, rfl⟩] at hpay
      rw [hencode] at h
      cases h
      have hne : buf.take (C.maxPayload f.codec) ≠ [] := by
        rw [← htake, ne_eq, take_eq_nil_iff]
        rintro (hnone | rfl)
        · exact hzero hnone
        · exact hzero (Nat.zero_min _)
      rw [hpay, wire, if_neg (by simp [hfr, hne]), hencode, hidle]
      exact ⟨hfr, rfl, fun h => absurd rfl h, by simp [begun, hidle, min_comm]⟩
  · cases h
    have hnil : f.payload buf answer = [] := by rw [hpay, if_neg fun h => hidle h.1]
    rw [hnil, wire_nil, append_nil]
    exact ⟨hfr, rfl, fun _ => rfl, (if_neg hidle).symm⟩

/-- **What a write does**: the encoding of its payload is sent or pending, and it is answered with the length of what
it is about exactly when nothing is left pending. -/
theorem pollWrite_spec (hpend : f.pending ≠ [] → f.writes = .framed) (h : f.pollWrite t buf = (f', t', answer)) :
    t'.sent ++ f'.pending = t.sent ++ f.pending ++ f.wire (f.payload buf answer) ∧
      (f.pending ≠ [] → f.payload buf answer = []) ∧
      (f'.pending = [] ∧ accepted answer = f.begun (f.payload buf answer) ∨
        f'.pending ≠ [] ∧ f'.writes = .framed ∧ accepted answer = 0 ∧ f'.taken = f.begun (f.payload buf answer)) := by
  unfold pollWrite at h
  split_ifs at h with hverbatim
  · rcases hwrite : t.pollWrite buf with ⟨t₁, answer₁⟩
    obtain ⟨hsent, hle, -⟩ := pollInner_spec hwrite
    rw [hwrite] at h
    cases h
    have hidle : f.pending = [] := by
      by_contra hne
      rw [hpend hne] at hverbatim
      cases hverbatim
    rw [payload, if_pos hverbatim, wire, if_pos (.inl hverbatim), begun, if_pos hidle, hsent, hidle]
    exact ⟨by simp, fun hne => absurd rfl hne, .inl ⟨rfl, (length_take_of_le hle).symm⟩⟩
  · have hfr : f.writes = .framed := by
      cases hwr : f.writes with
      | framed => rfl
      | verbatim => exact absurd hwr hverbatim
    rcases hbegin : f.beginFrame buf with ⟨g, _ | stopped⟩ <;>
      obtain ⟨hwr, hpending, hnil, hspec⟩ := beginFrame_spec hfr hbegin answer <;> rw [hbegin] at h
    · dsimp only at h hspec
      rcases hout : writeOut (g.pending.length + 1) g.pending t with ⟨pending, t₁, stopped⟩
      obtain ⟨hsent, -, hstop⟩ := writeOut_spec _ (Nat.lt_succ_self _) hout
      rw [hout] at h
      cases h
      refine ⟨by rw [hsent, hpending, append_assoc], hnil, ?_⟩
      rcases hstop with ⟨hdone, rfl⟩ | ⟨hleft, answer, rfl, hzero⟩
      · exact .inl ⟨hdone, hspec⟩
      · exact .inr ⟨hleft, hwr, hzero, hspec⟩
    · cases h
      exact ⟨by rw [hpending, append_assoc], hnil, .inl hspec⟩

/-! ### Runs -/

/-- What a caller has been told of the writes: the payload framed so far, the bytes that answers accounted for,
whether no answer exceeded its buffer, and what the payloads are on the wire. -/
structure Writing where
  payload : Bytes
  reported : Bytes
  fits : Bool
  wire : Bytes
deriving DecidableEq, Repr

def Writing.new (sent : Bytes) : Writing := ⟨[], [], true, sent⟩

def Writing.next (w : Writing) (f : Framed C) : Event → Writing
  | .write buf answer =>
    { payload := w.payload ++ f.payload buf answer
      reported := w.reported ++ buf.take (accepted answer)
      fits := w.fits && decide (accepted answer ≤ buf.length)
      wire := w.wire ++ f.wire (f.payload buf answer) }
  | _ => w

variable (u : Stream C × Writing)

def writeStep (op : Op) : Stream C × Writing :=
  let (s, event) := u.1.step op
  (s, u.2.next u.1.framed event)

/-- **The answers are true**: each is for bytes of its own buffer, together they are the payload framed except for a
frame that is pending, and the inner stream has been given the encodings of the payloads, up to what is pending. -/
def Truthful : Prop :=
  u.2.fits = true ∧ u.2.reported <+: u.2.payload ∧ (u.1.framed.pending = [] → u.2.reported = u.2.payload) ∧
    u.2.wire = u.1.inner.sent ++ u.1.framed.pending

/-- A write while a frame is pending offers again what the frame was made of. -/
def Resumes : Op → Prop
  | .write buf => u.1.framed.pending ≠ [] → u.2.payload.drop u.2.reported.length <+: buf
  | _ => True

/-- `current` is the payload of the frame that is pending. -/
structure WriteInv (u : Stream C × Writing) (current : Bytes) : Prop where
  fits : u.2.fits = true
  payload : u.2.payload = u.2.reported ++ current
  wire : u.2.wire = u.1.inner.sent ++ u.1.framed.pending
  idle : u.1.framed.pending = [] → current = []
  pending : u.1.framed.pending ≠ [] → u.1.framed.writes = .framed ∧ current.length = u.1.framed.taken

theorem WriteInv.alike {s s' : Stream C} (h : WriteInv (s, w) current)
    (hout : s'.framed.toOutgoing = s.framed.toOutgoing) (hsent : s'.inner.sent = s.inner.sent) :
    WriteInv (s', w) current := by
  refine ⟨h.fits, h.payload, ?_, ?_, ?_⟩ <;> dsimp only <;> rw [hout]
  · rw [hsent]
    exact h.wire
  · exact h.idle
  · exact h.pending

theorem WriteInv.write (h : WriteInv (s, w) current) (hresu : Resumes (s, w) (.write buf)) :
    ∃ current, WriteInv (writeStep (s, w) (.write buf)) current := by
  rcases hwrite : s.framed.pollWrite s.inner buf with ⟨g, inner, answer⟩
  have hstep : writeStep (s, w) (.write buf) = (⟨g, inner⟩, w.next s.framed (.write buf answer)) := by
    simp only [writeStep, Stream.step, hwrite]
  obtain ⟨hsent, hnil, hans⟩ := pollWrite_spec (fun hpend => (h.pending hpend).1) hwrite
  -- The frame is made of the front of this buffer, whichever call began it.
  have hfront : current ++ s.framed.payload buf answer <+: buf ∧
      (current ++ s.framed.payload buf answer).length = s.framed.begun (s.framed.payload buf answer) := by
    unfold begun
    split_ifs with hidle
    · rw [h.idle hidle]
      exact ⟨s.framed.payload_isPrefix buf answer, rfl⟩
    · rw [hnil hidle, append_nil]
      have hagain := hresu hidle
      rw [h.payload, drop_left] at hagain
      exact ⟨hagain, (h.pending hidle).2⟩
  have hpayload : w.payload ++ s.framed.payload buf answer =
      w.reported ++ (current ++ s.framed.payload buf answer) := by
    rw [← append_assoc]
    exact congrArg (· ++ _) h.payload
  have hwire : w.wire ++ s.framed.wire (s.framed.payload buf answer) = inner.sent ++ g.pending := by
    rw [hsent]
    exact congrArg (· ++ _) h.wire
  have hfits : accepted answer ≤ buf.length → (w.next s.framed (.write buf answer)).fits = true := fun hle => by
    simp [Writing.next, show w.fits = true from h.fits, hle]
  rw [hstep]
  rcases hans with ⟨hdone, htold⟩ | ⟨hleft, hfr, hzero, htaken⟩
  · rw [← hfront.2] at htold
    refine ⟨[], hfits (htold ▸ hfront.1.length_le), ?_, hwire, fun _ => rfl, fun hleft => absurd hdone hleft⟩
    rw [append_nil]
    change _ = w.reported ++ buf.take _
    rw [htold, ← prefix_iff_eq_take.mp hfront.1]
    exact hpayload
  · refine ⟨current ++ s.framed.payload buf answer, hfits (hzero ▸ Nat.zero_le _), ?_, hwire,
      fun hdone => absurd hdone hleft, fun _ => ⟨hfr, hfront.2.trans htaken.symm⟩⟩
    change _ = w.reported ++ buf.take _ ++ _
    rw [hzero, take_zero, append_nil]
    exact hpayload

theorem WriteInv.step {u : Stream C × Writing} (h : WriteInv u current) (hresu : Resumes u op) :
    ∃ current, WriteInv (writeStep u op) current := by
  obtain ⟨s, w⟩ := u
  cases op with
  | write buf => exact h.write hresu
  | read room =>
    obtain ⟨recv, hok⟩ := pollRead_spec (show s.framed.pollRead s.inner room = (_, _, _) from rfl)
    exact ⟨current, h.alike hok.outgoing hok.took.sent⟩
  | flush | shutdown =>
    refine ⟨current, h.alike rfl ?_⟩
    change s.inner.pollFlush.1.sent = s.inner.sent
    unfold Inner.pollFlush
    split <;> rfl

/-- **Framed writing tells the truth** in every run in which a write that finds a frame pending offers again what the
frame was made of. -/
theorem truthful_run (codec : C.State) (coded : Bytes) (t : Inner) (ops : List Op)
    (hresumes : Along writeStep Resumes (⟨withPrefix codec coded, t⟩, Writing.new t.sent) ops) :
    Truthful (run writeStep (⟨withPrefix codec coded, t⟩, Writing.new t.sent) ops) := by
  have hinv : WriteInv (⟨withPrefix codec coded, t⟩, Writing.new t.sent) [] :=
    ⟨rfl, rfl, (append_nil _).symm, fun _ => rfl, fun hpend => absurd rfl hpend⟩
  obtain ⟨current, hrun⟩ := run_invariant (I := fun u => ∃ current, WriteInv u current)
    (fun _ _ ⟨_, h⟩ hresumes => h.step hresumes) ops _ ⟨[], hinv⟩ hresumes
  refine ⟨hrun.fits, hrun.payload ▸ prefix_append _ _, fun hdone => ?_, hrun.wire⟩
  rw [hrun.payload, hrun.idle hdone, append_nil]

/-! ### A write given up -/

open Shadowsocks in
def tagging : Crypto where
  deriveKey _ material := material
  Key := Unit
  unboundKey _ _ := some ()
  openInPlace _ _ block := some (block.take (block.length - tag))
  sealInPlace _ _ block := some (block ++ List.replicate tag 0)

open Shadowsocks in
def taggingCodec : StreamCodec tagging := ⟨⟨(), 2⟩, none, .aes128Gcm, ⟨[], .aes128Gcm⟩, [], .salt⟩

def putOff : Inner := ⟨[], [.pending, .accept 64], [], []⟩

def writer : Stream (Shadowsocks.StreamCodec.codec tagging 0) × Writing :=
  (⟨withPrefix taggingCodec [], putOff⟩, Writing.new [])

/-- The first write again, once the inner stream is ready. -/
theorem truthful_retried : Along writeStep Resumes writer [.write [1, 2, 3], .write [1, 2, 3, 4]] ∧
      Truthful (run writeStep writer [.write [1, 2, 3], .write [1, 2, 3, 4]]) := by
  have hresu : Along writeStep Resumes writer [.write [1, 2, 3], .write [1, 2, 3, 4]] :=
    ⟨fun hpend => absurd rfl hpend, fun _ => by decide +kernel, trivial⟩
  exact ⟨hresu, truthful_run (C := Shadowsocks.StreamCodec.codec tagging 0) taggingCodec [] putOff _ hresu⟩

/-- **A write given up**: three bytes are framed while the inner stream is not ready; the next write, of one other
byte, is answered with three, and what is sent are the bytes of the first. -/
theorem overstated_write : (run writeStep writer [.write [1, 2, 3], .write [9]]).2.payload = [1, 2, 3] ∧
      (run writeStep writer [.write [1, 2, 3], .write [9]]).2.reported = [9] ∧
      ¬ Truthful (run writeStep writer [.write [1, 2, 3], .write [9]]) := by
  have hfits : (run writeStep writer [.write [1, 2, 3], .write [9]]).2.fits = false := by decide +kernel
  refine ⟨by decide +kernel, by decide +kernel, fun htruthful => ?_⟩
  rw [htruthful.1] at hfits
  cases hfits

end Boreas.Framed
