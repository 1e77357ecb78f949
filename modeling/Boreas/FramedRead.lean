import Boreas.Framed
import Boreas.StreamCodecs

/-! # Reading a framed stream

What `poll_read` delivers is the codec's decoding of the bytes, `Framed.decoding`, however the inner stream cuts
them.  A turn keeps what the stream will deliver (`turn_spec`); `delivered_run` is about every sequence of calls: what
has been delivered is the front of the decoding, all of what was received once a read comes back empty, and the whole
of it once the codec has failed or there were reads enough.  `vless_reads` is that for VLESS. -/

namespace Boreas

open List

/-! ### Answers -/

def given : Poll (Except StreamError Bytes) → Bytes
  | .ready (.ok bytes) => bytes
  | _ => []

def codecFailed : Poll (Except StreamError Bytes) → Bool
  | .ready (.error (.invalidData _)) => true
  | _ => false

/-- A reader took `received` from the inner stream, and used up an answer of it if it got nothing. -/
structure Inner.Took (t : Inner) (received : Bytes) (idle : Prop) (t' : Inner) : Prop where
  unread : t.unread = received ++ t'.unread
  le : t'.reads.length ≤ t.reads.length
  used : idle → t'.reads.length ≤ t.reads.length - 1
  sent : t'.sent = t.sent

theorem Inner.Took.refl (t : Inner) (h : ¬ idle) : t.Took [] idle t :=
  ⟨rfl, le_rfl, fun hidle => absurd hidle h, rfl⟩

theorem Inner.took_cons {t : Inner} (h : t.reads = answer :: rest) :
    t.Took answer.bytes idle { t with reads := rest } :=
  ⟨by simp [unread, h], by simp [h], fun _ => by simp [h], rfl⟩

theorem Inner.pollRead_spec {t : Inner} (h : t.pollRead room = (t', answer)) :
    t.Took (given answer) (given answer = [] ∧ 0 < room) t' ∧ codecFailed answer = false := by
  unfold Inner.pollRead at h
  split at h
  · next hreads =>
      cases h
      exact ⟨⟨rfl, le_rfl, fun _ => by simp [hreads], rfl⟩, rfl⟩
  · next hreads =>
      cases h
      exact ⟨took_cons hreads, rfl⟩
  · next hreads =>
      cases h
      exact ⟨took_cons hreads, rfl⟩
  · next bytes reads hreads =>
      split_ifs at h with hroom
      · cases h
        exact ⟨took_cons hreads, rfl⟩
      · cases h
        refine ⟨⟨?_, by simp [hreads], fun hidle => ?_, rfl⟩, rfl⟩
        · unfold unread
          rw [hreads]
          change bytes ++ _ = bytes.take room ++ (bytes.drop room ++ _)
          rw [← append_assoc, take_append_drop]
        · have hnil : bytes.take room = [] := hidle.1
          rw [take_eq_nil_iff] at hnil
          rcases hnil with hzero | rfl
          · omega
          · simp at hroom

namespace Framed

variable {C : Codec} {f f' : Framed C} {t t' : Inner} {room : ℕ}

/-! ### What is still to be delivered -/

/-- **What a framed stream delivers** when the inner one goes on with `stream`: what is decoded ahead, and the codec's
decoding of the rest. -/
def decoding (f : Framed C) (stream : Bytes) : Bytes :=
  f.decodedAhead ++ if f.transparent then stream else C.decoding f.codec (f.coming ++ stream)

/-- What is left to deliver: nothing once the codec has failed. -/
def left (failed : Bool) (f : Framed C) (stream : Bytes) : Bytes := if failed then [] else f.decoding stream

structure ReadOk (f : Framed C) (t : Inner) (received : Bytes) (room : ℕ) (answer : Poll (Except StreamError Bytes))
    (f' : Framed C) (t' : Inner) : Prop where
  took : t.Took received (given answer = [] ∧ codecFailed answer = false ∧ 0 < room) t'
  outgoing : f'.toOutgoing = f.toOutgoing
  gives : ∀ later, f.decoding (received ++ later) = given answer ++ f'.left (codecFailed answer) later
  dry : given answer = [] → 0 < room → f'.left (codecFailed answer) [] = []

def TurnOk (f : Framed C) (t : Inner) (received : Bytes) (room : ℕ) (f' : Framed C) (t' : Inner) :
    Option (Poll (Except StreamError Bytes)) → Prop
  | some answer => ReadOk f t received room answer f' t'
  | none => t.Took received False t' ∧ f'.toOutgoing = f.toOutgoing ∧
      (∀ later, f.decoding (received ++ later) = f'.decoding later) ∧ f'.turns t' < f.turns t

variable {answer : Option (Poll (Except StreamError Bytes))}

theorem TurnOk.congr (h : TurnOk g t received room f' t' answer) (hout : g.toOutgoing = f.toOutgoing)
    (hsame : ∀ later, f.decoding later = g.decoding later) (hturns : g.turns t = f.turns t) :
    TurnOk f t received room f' t' answer := by
  rcases answer with _ | answer
  · exact ⟨h.1, h.2.1.trans hout, fun later => (hsame _).trans (h.2.2.1 later), hturns ▸ h.2.2.2⟩
  exact ⟨h.took, h.outgoing.trans hout, fun later => (hsame _).trans (h.gives later), h.dry⟩

theorem decoding_nil_of_waits (hplain : f.plain = []) (hwaits : C.decoding f.codec f.coming = []) :
    f.decoding [] = [] := by
  unfold decoding decodedAhead
  rw [hplain, append_nil, hwaits]
  simp

/-! ### The parts of a turn -/

theorem plain_of_drain (h : f.drain room = none) : f.plain = [] ∧ f.plainAt = 0 := by
  have hahead : f.decodedAhead = [] := by
    by_contra hahead
    unfold drain at h
    dsimp only at h
    split_ifs at h
  rcases f.plainAt_lt with hnil | hlt
  · exact hnil
  · rw [decodedAhead, drop_eq_nil_iff] at hahead
    omega

theorem drain_spec (h : f.drain room = some (f', bytes)) :
    f'.toOutgoing = f.toOutgoing ∧ (∀ later, f.decoding later = bytes ++ f'.decoding later) ∧
      (0 < room → bytes ≠ []) := by
  have hne : 0 < room → f.decodedAhead ≠ [] → f.decodedAhead.take (min f.decodedAhead.length room) ≠ [] := by
    intro hroom hahead hnil
    have hlen := congrArg List.length hnil
    have hpos := length_pos_iff.mpr hahead
    rw [length_take, length_nil] at hlen
    omega
  unfold drain at h
  dsimp only at h
  split_ifs at h with hahead hall
  · cases h
    refine ⟨rfl, fun later => ?_, fun hroom => hne hroom hahead⟩
    have hmoved : f.decodedAhead.take (min f.decodedAhead.length room) = f.decodedAhead := by
      refine take_of_length_le ?_
      rw [decodedAhead, length_drop] at hall ⊢
      omega
    rw [hmoved]
    rfl
  · cases h
    refine ⟨rfl, fun later => ?_, fun hroom => hne hroom hahead⟩
    unfold decoding
    rw [← append_assoc]
    congr 1
    change f.decodedAhead = f.decodedAhead.take _ ++ f.plain.drop (f.plainAt + _)
    rw [← drop_drop]
    exact (take_append_drop _ _).symm

theorem coming_advance (h : consumed ≤ f.coming.length) : (f.advance consumed h).coming = f.coming.drop consumed := by
  unfold advance
  split_ifs
  · simp [coming]
  · simp [coming]

variable {out rest : Bytes} {codec : C.State}

theorem frame_spec (hplain : f.plain = [] ∧ f.plainAt = 0)
    (hdec : C.decode f.codec f.coming = (codec, out, .ok (.framed rest)))
    (hle : (Decode.framed rest).consumed f.coming ≤ (f.decoded codec out).coming.length) :
    ((f.decoded codec out).advance _ hle).coming = rest ∧ ((f.decoded codec out).advance _ hle).codec = codec ∧
      ((f.decoded codec out).advance _ hle).plain = out ∧ ((f.decoded codec out).advance _ hle).plainAt = 0 ∧
      ((f.decoded codec out).advance _ hle).toOutgoing = f.toOutgoing := by
  have hsuf : rest <:+ f.coming := by
    rcases C.decode_framed hdec with ⟨-, -, rfl⟩ | ⟨hsuf, -⟩
    · exact suffix_rfl
    · exact hsuf
  refine ⟨?_, ?_, ?_, ?_, ?_⟩
  · rw [coming_advance]
    obtain ⟨front, hfront⟩ := hsuf
    change f.coming.drop _ = rest
    rw [← hfront]
    simp [Decode.consumed, Decode.rest]
  · unfold advance
    split_ifs <;> rfl
  · unfold advance
    split_ifs <;> simp [decoded, hplain.1]
  · unfold advance
    split_ifs <;> exact hplain.2
  · unfold advance
    split_ifs <;> rfl

theorem decoding_advance (hplain : f.plain = [] ∧ f.plainAt = 0)
    (hopen : f.transparent = false) (hdec : C.decode f.codec f.coming = (codec, out, .ok (.framed rest)))
    (hle : (Decode.framed rest).consumed f.coming ≤ (f.decoded codec out).coming.length) (later : Bytes) :
    f.decoding later = ((f.decoded codec out).advance _ hle).decoding later := by
  obtain ⟨hcom, hcodec, hplain', hat, -⟩ := frame_spec hplain hdec hle
  have hopen' : ((f.decoded codec out).advance _ hle).transparent = false :=
    (advance_transparent _ _ _).trans hopen
  unfold decoding
  rw [hopen, hopen', hcom, hcodec, decodedAhead, decodedAhead, hplain.1, hplain', hat, drop_nil]
  by_cases hne : rest = f.coming
  · rcases C.decode_framed hdec with ⟨rfl, rfl, rfl⟩ | ⟨-, hne'⟩
    · rfl
    · exact absurd hne hne'
  · exact Codec.decoding_framed hdec hne later

theorem decoding_switch (hplain : f.plain = [] ∧ f.plainAt = 0) (hopen : f.transparent = false) (hcom : f.coming ≠ [])
    (hdec : C.decode f.codec f.coming = (codec, out, .ok (.transparent rest))) (later : Bytes) :
    f.decoding later = (f.switch codec out rest).decoding later := by
  unfold decoding
  rw [hopen, decodedAhead, hplain.1, drop_nil]
  change C.decoding f.codec (f.coming ++ later) = (f.plain ++ out ++ rest).drop f.plainAt ++ later
  rw [hplain.1, hplain.2, Codec.decoding_transparent hdec hcom later]
  rfl

theorem fill_spec (room : ℕ) (hopen : f.transparent = false) (hplain : f.plain = [])
    (hwaits : C.decoding f.codec f.coming = []) (h : f.fill hopen t = (f', t', answer)) :
    ∃ recv, TurnOk f t recv room f' t' answer := by
  have hdry : f.decoding [] = [] := decoding_nil_of_waits hplain hwaits
  unfold fill at h
  rcases hread : t.pollRead framedChunk with ⟨t₁, read⟩
  obtain ⟨⟨hunr, hle, hused, hsent⟩, hfine⟩ := Inner.pollRead_spec hread
  rw [hread] at h
  match read, h, hunr, hfine, hused with
  | .pending, h, hunr, hfine, hused | .ready (.error e), h, hunr, hfine, hused
  | .ready (.ok []), h, hunr, hfine, hused =>
    cases h
    refine ⟨[], ⟨hunr, hle, fun _ => hused ⟨rfl, by decide⟩, hsent⟩, rfl, fun _ => ?_, fun _ _ => ?_⟩ <;>
      rw [left, hfine]
    · rfl
    · exact hdry
  | .ready (.ok (b :: filled)), h, hunr, _, _ =>
    cases h
    have hcom : (f.coded ++ b :: filled).drop f.codedAt = f.coming ++ b :: filled :=
      drop_append_of_le_length f.codedAt_le
    refine ⟨b :: filled, ⟨hunr, hle, nofun, hsent⟩, rfl, fun later => ?_, ?_⟩
    · unfold decoding
      change f.decodedAhead ++ (if f.transparent then _ else C.decoding f.codec (f.coming ++ (b :: filled ++ later))) =
        f.decodedAhead ++ if f.transparent then later else
          C.decoding f.codec ((f.coded ++ b :: filled).drop f.codedAt ++ later)
      rw [hopen, hcom, append_assoc]
      rfl
    · unfold turns
      change 2 * t'.unread.length + ((f.coded ++ b :: filled).drop f.codedAt).length + 1 < _
      rw [hcom, hunr, length_append, length_append]
      change _ < 2 * ((b :: filled).length + t'.unread.length) + _ + 1
      rw [length_cons]
      omega

/-! ### A turn, a call -/

theorem turn_spec (h : f.turn t room = (f', t', answer)) : ∃ recv, TurnOk f t recv room f' t' answer := by
  unfold turn at h
  cases hdrain : f.drain room with
  | some drained =>
    rw [hdrain] at h
    cases h
    obtain ⟨hout, hgives, hnonempty⟩ := drain_spec hdrain
    exact ⟨[], .refl t fun hidle => hnonempty hidle.2.2 hidle.1, hout, hgives,
      fun hnil hroom => absurd hnil (hnonempty hroom)⟩
  | none =>
    have hplain := plain_of_drain hdrain
    rw [hdrain] at h
    split_ifs at h with hpasses hcoded
    · -- Transparent: the caller's buffer goes to the inner stream.
      rcases hread : t.pollRead room with ⟨t₁, read⟩
      obtain ⟨⟨hunr, hle, hused, hsent⟩, hfine⟩ := Inner.pollRead_spec hread
      rw [hread] at h
      cases h
      have hdecoding : ∀ later, f.decoding later = later := by
        intro later
        unfold decoding decodedAhead
        rw [hplain.1, hpasses.1, drop_nil]
        rfl
      refine ⟨given read, ⟨hunr, hle, fun hidle => hused ⟨hidle.1, hidle.2.2⟩, hsent⟩, rfl, fun later => ?_,
        fun _ _ => ?_⟩ <;> rw [left, hfine]
      · exact (hdecoding _).trans (congrArg _ (hdecoding later).symm)
      · exact hdecoding []
    · have hopen := transparent_eq_false hpasses
      have hcom : f.coming ≠ [] := by
        rw [coming, ne_eq, drop_eq_nil_iff]
        omega
      match hdec : C.decode f.codec f.coming with
      | (codec, out, .error e) =>
        rw [hdec] at h
        cases h
        refine ⟨[], .refl t (by simp [codecFailed]), rfl, fun later => ?_, fun _ _ => rfl⟩
        unfold decoding
        rw [hopen, decodedAhead, hplain.1, drop_nil]
        exact Codec.decoding_error hdec hcom later
      | (codec, out, .ok (.transparent rest)) =>
        rw [hdec] at h
        cases h
        refine ⟨[], .refl t id, rfl, decoding_switch hplain hopen hcom hdec, ?_⟩
        have hpos := length_pos_iff.mpr hcom
        change 2 * t.unread.length + 0 + 1 < 2 * t.unread.length + f.coming.length + 1
        omega
      | (codec, out, .ok (.framed rest)) =>
        rw [hdec] at h
        dsimp only at h
        have hle : (Decode.framed rest).consumed f.coming ≤ (f.decoded codec out).coming.length := Nat.sub_le _ _
        have hsame := decoding_advance hplain hopen hdec hle
        obtain ⟨hrest, hcodec, hplain', -, hside⟩ := frame_spec hplain hdec hle
        rcases C.decode_framed hdec with ⟨hcodec', hout, hidle⟩ | ⟨hsuf, hne⟩
        · -- The codec waits for more.
          have hstays : ¬ (0 < (Decode.framed rest).consumed f.coming ∨
              ((f.decoded codec out).advance _ hle).plain ≠ []) := by
            rintro (hpos | hne)
            · simp [Decode.consumed, Decode.rest, hidle] at hpos
            · exact hne (hplain'.trans hout)
          rw [if_neg hstays] at h
          have hwaits : C.decoding codec rest = [] := by
            rw [hidle, hcodec']
            exact Codec.decoding_waits (hidle ▸ hdec)
          obtain ⟨recv, hok⟩ := fill_spec room _ (by rw [hplain', hout]) (by rw [hcodec, hrest, hwaits]) h
          exact ⟨recv, hok.congr hside hsame (by rw [turns, turns, hrest, hidle])⟩
        · have hshorter : rest.length < f.coming.length :=
            lt_of_le_of_ne hsuf.length_le fun heq => hne (hsuf.eq_of_length heq)
          have hgoes : 0 < (Decode.framed rest).consumed f.coming := by
            simpa [Decode.consumed, Decode.rest] using hshorter
          rw [if_pos (.inl hgoes)] at h
          cases h
          refine ⟨[], .refl t id, hside, hsame, ?_⟩
          unfold turns
          rw [hrest]
          omega
    · have hopen := transparent_eq_false hpasses
      have hcom : f.coming = [] := by
        rw [coming, drop_eq_nil_iff]
        omega
      exact fill_spec room hopen hplain.1 (by rw [hcom, Codec.decoding_nil]) h

theorem pollReadWithin_spec : ∀ (n : ℕ) {f f' : Framed C} {t t' : Inner} {answer : Poll (Except StreamError Bytes)},
    f.turns t ≤ n → pollReadWithin n f t room = (f', t', answer) → ∃ recv, ReadOk f t recv room answer f' t' := by
  intro n
  induction n with
  | zero =>
    intro f f' t t' answer hn
    unfold turns at hn
    omega
  | succ n ih =>
    intro f f' t t' answer hn h
    unfold pollReadWithin at h
    rcases hturn : f.turn t room with ⟨f₁, t₁, answer₁⟩
    obtain ⟨recv, hok⟩ := turn_spec hturn
    rw [hturn] at h
    cases answer₁ with
    | some answer₁ =>
      cases h
      exact ⟨recv, hok⟩
    | none =>
      obtain ⟨htook, hout, hsame, hturns⟩ := hok
      obtain ⟨recv', hok'⟩ := ih (by omega) h
      have hle := htook.le
      have hle' := hok'.took.le
      refine ⟨recv ++ recv', ⟨?_, by omega, fun hidle => ?_, hok'.took.sent.trans htook.sent⟩,
        hok'.outgoing.trans hout, fun later => ?_, hok'.dry⟩
      · rw [htook.unread, hok'.took.unread, append_assoc]
      · have hused := hok'.took.used hidle
        omega
      · rw [append_assoc, hsame, hok'.gives]

/-- **What a read gives** is the front of what the stream delivers, whatever is still to come. -/
theorem pollRead_spec {answer : Poll (Except StreamError Bytes)} (h : f.pollRead t room = (f', t', answer)) :
    ∃ recv, ReadOk f t recv room answer f' t' :=
  pollReadWithin_spec _ le_rfl h

/-! ### What writing leaves alone -/

structure ReadsAlike (f : Framed C) (t : Inner) (f' : Framed C) (t' : Inner) : Prop where
  decoding : ∀ later, f'.decoding later = f.decoding later
  reads : t'.reads = t.reads

theorem Inner.reads_pollFlush (t : Inner) : t.pollFlush.1.reads = t.reads := by
  unfold Inner.pollFlush
  split <;> rfl

theorem decoding_beginFrame (f : Framed C) (buf later : Bytes) :
    (f.beginFrame buf).1.decoding later = f.decoding later := by
  have hencode : ∀ payload, C.decoding (C.encode f.codec payload).1 (f.coming ++ later) =
      C.decoding f.codec (f.coming ++ later) := fun payload => Codec.decoding_encode
  unfold beginFrame
  split_ifs with hpend
  · dsimp only
    split_ifs with htake
    · rfl
    have hsame := hencode (buf.take (min buf.length (C.maxPayload f.codec)))
    split
    · next codec out e hres =>
        rw [hres] at hsame
        exact congrArg (fun tail => f.decodedAhead ++ if f.transparent then later else tail) hsame
    · next codec out hres =>
        rw [hres] at hsame
        exact congrArg (fun tail => f.decodedAhead ++ if f.transparent then later else tail) hsame
  · rfl

theorem readsAlike_pollWrite (f : Framed C) (t : Inner) (buf : Bytes) :
    ReadsAlike f t (f.pollWrite t buf).1 (f.pollWrite t buf).2.1 := by
  unfold pollWrite
  split_ifs with hverbatim
  · exact ⟨fun _ => rfl, (pollInner_spec rfl).2.2⟩
  have hbegin := decoding_beginFrame f buf
  split
  · next hframe =>
      rw [hframe] at hbegin
      exact ⟨hbegin, rfl⟩
  · next g hframe =>
      rw [hframe] at hbegin
      exact ⟨hbegin, (writeOut_spec _ (Nat.lt_succ_self _) rfl).2.1⟩

/-! ### Runs -/

/-- What a caller has seen of the reads: what they delivered until the codec failed, and whether the last one left
room in the buffer because there was nothing more. -/
structure Reading where
  delivered : Bytes
  failed : Bool
  dry : Bool
deriving DecidableEq, Repr

def Reading.new : Reading := ⟨[], false, false⟩

def Reading.next (r : Reading) : Event → Reading
  | .read room answer =>
    if r.failed then r
    else ⟨r.delivered ++ given answer, codecFailed answer, given answer = [] ∧ 0 < room⟩
  | _ => r

def readStep (u : Stream C × Reading) (op : Op) : Stream C × Reading :=
  let (s, event) := u.1.step op
  (s, u.2.next event)

/-- Reading is exact: what has been delivered is the front of the decoding of the whole stream, all of it once the
codec has failed or the stream is read to its end, and never behind what was received when a read comes back empty. -/
structure Exact (f : Framed C) (stream : Bytes) (u : Stream C × Reading) : Prop where
  inOrder : u.2.delivered <+: f.decoding stream
  upToDate : u.2.failed = false → u.2.dry = true →
    ∃ received, stream = received ++ u.1.inner.unread ∧ u.2.delivered = f.decoding received
  whole : u.2.failed = true ∨ u.2.dry = true ∧ u.1.inner.unread = [] → u.2.delivered = f.decoding stream

/-- A read into a buffer with room. -/
def Op.asks : Op → Bool
  | .read room => 0 < room
  | _ => false

/-- `asked` reads were made into buffers with room: each has delivered something or used up an answer of the inner
stream, until all was delivered. -/
structure ReadInv (f : Framed C) (t : Inner) (asked : ℕ) (u : Stream C × Reading) : Prop where
  going : ∃ received, t.unread = received ++ u.1.inner.unread ∧
    (∀ later, f.decoding (received ++ later) = u.2.delivered ++ u.1.framed.left u.2.failed later) ∧
    (u.2.dry = true → u.1.framed.left u.2.failed [] = [])
  goes : u.2.delivered = f.decoding t.unread ∨ asked + u.1.inner.reads.length ≤ t.reads.length + u.2.delivered.length

theorem ReadInv.exact (h : ReadInv f t asked u) : Exact f t.unread u := by
  obtain ⟨recv, hstr, hgives, hdry⟩ := h.going
  rw [hstr]
  refine ⟨?_, fun _ hd => ⟨recv, rfl, ?_⟩, ?_⟩
  · rw [hgives]
    exact prefix_append _ _
  · have hnow := hgives []
    rw [append_nil, hdry hd, append_nil] at hnow
    exact hnow.symm
  · rw [hgives]
    rintro (hfail | ⟨hd, hend⟩)
    · simp [left, hfail]
    · rw [hend, hdry hd, append_nil]

theorem ReadInv.whole (h : ReadInv f t asked u) (henough : t.reads.length + (f.decoding t.unread).length < asked) :
    u.2.delivered = f.decoding t.unread := by
  refine h.goes.resolve_right fun hgoes => ?_
  have hle := h.exact.inOrder.length_le
  omega

theorem ReadInv.alike (h : ReadInv f t asked (s, r))
    (halike : ReadsAlike s.framed s.inner s'.framed s'.inner) : ReadInv f t asked (s', r) := by
  refine ⟨?_, by rw [halike.reads]; exact h.goes⟩
  obtain ⟨recv, hstr, hgives, hdry⟩ := h.going
  have hleft : ∀ later, s'.framed.left r.failed later = s.framed.left r.failed later := fun later => by
    rw [left, left, halike.decoding]
  refine ⟨recv, by rw [hstr, Inner.unread, Inner.unread, halike.reads], fun later => ?_, fun hd => ?_⟩
  · rw [hgives, hleft]
  · rw [hleft]
    exact hdry hd

theorem ReadInv.step (h : ReadInv f t asked u) (op : Op) :
    ReadInv f t (asked + [op].countP Op.asks) (readStep u op) := by
  obtain ⟨s, r⟩ := u
  cases op with
  | write buf => exact h.alike (readsAlike_pollWrite s.framed s.inner buf)
  | flush | shutdown => exact h.alike ⟨fun _ => rfl, Inner.reads_pollFlush s.inner⟩
  | read room =>
    rcases hread : s.framed.pollRead s.inner room with ⟨g, inner, answer⟩
    obtain ⟨recv', hok⟩ := pollRead_spec hread
    have hstep : readStep (s, r) (.read room) = (⟨g, inner⟩, r.next (.read room answer)) := by
      simp only [readStep, Stream.step, hread]
    rw [hstep]
    obtain ⟨recv, hstr, hgives, hdry⟩ := h.going
    rw [hok.took.unread, ← append_assoc] at hstr
    cases hfail : r.failed with
    | true =>
      have hsame : r.next (.read room answer) = r := by simp [Reading.next, hfail]
      rw [hsame]
      refine ⟨⟨recv ++ recv', hstr, fun later => ?_, fun _ => by rw [left, hfail]; rfl⟩, .inl (h.exact.whole (.inl hfail))⟩
      rw [append_assoc, hgives, left, left, hfail]
      rfl
    | false =>
      have hnext : r.next (.read room answer) =
          ⟨r.delivered ++ given answer, codecFailed answer, given answer = [] ∧ 0 < room⟩ := by
        simp [Reading.next, hfail]
      have hgoing : ∀ later, f.decoding (recv ++ recv' ++ later) =
          r.delivered ++ given answer ++ g.left (codecFailed answer) later := fun later => by
        rw [append_assoc, hgives, left, hfail, append_assoc, ← hok.gives]
        rfl
      rw [hnext]
      refine ⟨⟨recv ++ recv', hstr, hgoing, fun hd => ?_⟩, ?_⟩
      · obtain ⟨hnone, hroom⟩ := of_decide_eq_true hd
        exact hok.dry hnone hroom
      have hwhole := hgoing inner.unread
      rw [← hstr] at hwhole
      cases hfine : codecFailed answer with
      | true =>
        rw [left, hfine] at hwhole
        exact .inl (hwhole.trans (append_nil _)).symm
      | false =>
        rcases h.goes with hall | hgoes
        · left
          rw [← hall, append_assoc, List.self_eq_append_right] at hwhole
          rw [(append_eq_nil_iff.mp hwhole).1, append_nil, ← hall]
        have hone : [Op.read room].countP Op.asks ≤ 1 := countP_le_length
        dsimp only at hgoes ⊢
        rw [length_append]
        have hle := hok.took.le
        by_cases hnone : given answer = []
        · by_cases hroom : 0 < room
          · have hused := hok.took.used ⟨hnone, hfine, hroom⟩
            rcases hreads : s.inner.reads with _ | ⟨first, reads⟩
            · -- The inner stream has no answer left.
              have hend : s.inner.unread = [] := by rw [Inner.unread, hreads]; rfl
              rw [hok.took.unread, append_eq_nil_iff] at hend
              rw [hend.2, hok.dry hnone hroom, append_nil] at hwhole
              exact .inl hwhole.symm
            · rw [hreads, length_cons] at hgoes hused
              omega
          · have hzero : [Op.read room].countP Op.asks = 0 := by simp [Op.asks, hroom]
            omega
        · have hpos := length_pos_iff.mpr hnone
          omega

theorem readInv_run (f : Framed C) (t : Inner) (ops : List Op) :
    ReadInv f t (ops.countP Op.asks) (Runs.run readStep (⟨f, t⟩, Reading.new) ops) := by
  induction ops using List.reverseRecOn with
  | nil => exact ⟨⟨[], rfl, fun _ => rfl, nofun⟩, .inr (by simp [Reading.new])⟩
  | append_singleton ops op ih =>
    rw [Runs.run_snoc, countP_append]
    exact ih.step op

/-- **Reading is independent of chunking**: from every state of a framed stream, for every script of the inner stream
and every sequence of calls. Reads enough deliver the whole. -/
theorem delivered_run (f : Framed C) (t : Inner) (ops : List Op) :
    Exact f t.unread (Runs.run readStep (⟨f, t⟩, Reading.new) ops) ∧
      (t.reads.length + (f.decoding t.unread).length < ops.countP Op.asks →
        (Runs.run readStep (⟨f, t⟩, Reading.new) ops).2.delivered = f.decoding t.unread) := by
  exact ⟨(readInv_run f t ops).exact, (readInv_run f t ops).whole⟩

/-! ### VLESS -/

/-- What a VLESS stream carries. -/
def afterHeader (stream : Bytes) : Bytes :=
  match Vless.decodeResponse stream with
  | .ok (.complete () consumed) => stream.drop consumed
  | _ => []

def vless : Framed Vless.ResponseHeader.codec := new ⟨false⟩

theorem decoding_vless (stream : Bytes) : vless.decoding stream = afterHeader stream := by
  show Vless.ResponseHeader.codec.decoding _ stream = _
  by_cases hne : stream = []
  · rw [hne, Codec.decoding_nil]
    rfl
  rw [Codec.decoding, if_neg hne, afterHeader]
  dsimp only [Vless.ResponseHeader.codec, Vless.ResponseHeader.decode, vless, new, withPrefix]
  rcases hres : Vless.decodeResponse stream with _ | _ | ⟨⟨⟩, consumed⟩
  · rfl
  · simp
  · obtain ⟨header, rest, rfl, rfl, -⟩ := Vless.decodeResponse_complete hres
    simp

/-- **A VLESS stream reads as what follows its header**, however the answer and the calls are cut. -/
theorem vless_reads (t : Inner) (ops : List Op) :
    let u := Runs.run readStep (⟨vless, t⟩, Reading.new) ops
    u.2.delivered <+: afterHeader t.unread ∧
      (u.2.failed = true ∨ u.2.dry = true ∧ u.1.inner.unread = [] ∨
        t.reads.length + (afterHeader t.unread).length < ops.countP Op.asks → u.2.delivered = afterHeader t.unread) := by
  have hinv := readInv_run vless t ops
  rw [← decoding_vless]
  refine ⟨hinv.exact.inOrder, ?_⟩
  rintro (hfail | hend | henough)
  · exact hinv.exact.whole (.inl hfail)
  · exact hinv.exact.whole (.inr hend)
  · exact hinv.whole henough

end Framed

end Boreas
