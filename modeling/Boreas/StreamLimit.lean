import Boreas.QuicDriver

/-! # Which streams can be used

A stream that is handed out with an id beyond the peer's limit is lost.  A request is checked against
`peerStreamsLeftBidi`, which counts a stream only from its first send on, while ids are used up when a request is
answered.  `usable_iff`: all streams handed out are usable exactly when each request that is granted finds fewer ids
given out and not yet opened (`System.unopened`) than the peer has streams left. -/

namespace Boreas.Quic

open L4 List Option Runs Table

/-! ### What sending does -/

structure Conn.Sends (id : ℕ) (c c' : Conn) : Prop where
  limit : c'.maxStreamsBidi = c.maxStreamsBidi
  opened : c'.openedBidi ≤ max c.openedBidi (id / 4 + 1)
  others : ∀ other ≠ id, c'.sent other = c.sent other
  stopped : ∀ other ∈ c.stopped, other ∈ c'.stopped

namespace Conn.Sends

variable {id : ℕ} {c c' c'' : Conn}

theorem refl (id : ℕ) (c : Conn) : c.Sends id c := ⟨rfl, le_max_left _ _, fun _ _ => rfl, fun _ h => h⟩

theorem trans (h : c.Sends id c') (h' : c'.Sends id c'') : c.Sends id c'' where
  limit := h'.limit.trans h.limit
  opened := by
    have h₁ := h.opened
    have h₂ := h'.opened
    omega
  others := fun other hne => (h'.others other hne).trans (h.others other hne)
  stopped := fun other hmem => h'.stopped other (h.stopped other hmem)

theorem within (h : c.Sends id c') (hwith : c.Within id') : c'.Within id' := by
  unfold Conn.Within at hwith ⊢
  rwa [h.limit]

end Conn.Sends

theorem Conn.sends_streamSend (c : Conn) (id : ℕ) (chunk : Bytes) (answer : SendAnswer) :
    c.Sends id (c.streamSend id chunk answer).1 := by
  unfold streamSend
  split_ifs with h
  · exact Sends.refl id c
  · cases answer with
    | written count => exact ⟨rfl, le_rfl, fun other hne => if_neg hne, fun _ hmem => hmem⟩
    | done => exact ⟨rfl, le_rfl, fun _ _ => rfl, fun _ hmem => hmem⟩
    | stopped => exact ⟨rfl, le_rfl, fun _ _ => rfl, fun _ hmem => mem_cons_of_mem _ hmem⟩

variable {id : ℕ}

theorem Conn.streamSend_spec {c : Conn} (h : c.Within id) (chunk : Bytes) (answer : SendAnswer) :
    (∃ count, (c.streamSend id chunk answer).2 = .ok (min count chunk.length) ∧
      (c.streamSend id chunk answer).1.sent id = c.sent id ++ chunk.take count) ∨
    ((c.streamSend id chunk answer).2 = .error .done ∧ (c.streamSend id chunk answer).1.sent id = c.sent id) ∨
    ((c.streamSend id chunk answer).2 = .error .stopped ∧ id ∈ (c.streamSend id chunk answer).1.stopped) := by
  have hopen : ¬ (c.openedBidi ≤ id / 4 ∧ c.maxStreamsBidi ≤ id / 4) := fun hlimit => by
    unfold Within at h
    omega
  unfold streamSend
  rw [if_neg hopen]
  cases answer with
  | written count => exact .inl ⟨count, rfl, if_pos rfl⟩
  | done => exact .inr (.inl ⟨rfl, rfl⟩)
  | stopped => exact .inr (.inr ⟨rfl, mem_cons_self⟩)

theorem sends_sendChunks (id : ℕ) (c : Conn) (chunks : List Bytes) (answers : List SendAnswer) :
    c.Sends id (sendChunks id c chunks answers).1 := by
  induction chunks generalizing c answers with
  | nil => exact Conn.Sends.refl id c
  | cons chunk chunks ih =>
    have hsend := c.sends_streamSend id chunk (answers.headD .done)
    unfold sendChunks
    rcases hsent : c.streamSend id chunk (answers.headD .done) with ⟨c', result⟩
    rw [hsent] at hsend
    cases result with
    | ok written =>
      dsimp only
      split_ifs
      · exact hsend
      · exact hsend.trans (ih c' answers.tail)
    | error e =>
      cases e with
      | done | streamLimit | stopped => exact hsend

theorem sendChunks_spec {c : Conn} (h : c.Within id) (chunks : List Bytes) (answers : List SendAnswer) :
    match sendChunks id c chunks answers with
    | (c', pendingOut, rest, gaveUp) => (gaveUp = true → id ∈ c'.stopped) ∧
      (gaveUp = false → c'.sent id ++ (pendingOut.getD [] ++ rest.flatten) = c.sent id ++ chunks.flatten) := by
  induction chunks generalizing c answers with
  | nil => exact ⟨nofun, fun _ => rfl⟩
  | cons chunk chunks ih =>
    have hsend := c.sends_streamSend id chunk (answers.headD .done)
    have hspec := Conn.streamSend_spec h chunk (answers.headD .done)
    unfold sendChunks
    rcases hsent : c.streamSend id chunk (answers.headD .done) with ⟨c', result⟩
    rw [hsent] at hsend hspec
    obtain ⟨count, rfl, htaken⟩ | ⟨rfl, htaken⟩ | ⟨rfl, hstop⟩ := hspec
    · dsimp only
      split_ifs with hshort
      · refine ⟨nofun, fun _ => ?_⟩
        have hcount : min count chunk.length = count := by omega
        rw [htaken, hcount, getD_some, append_assoc, ← append_assoc (chunk.take count),
          take_append_drop, flatten_cons]
      · have hall : chunk.take count = chunk := take_of_length_le (by omega)
        have hih := ih (hsend.within h) answers.tail
        rw [htaken, hall, append_assoc] at hih
        exact hih
    · refine ⟨nofun, fun _ => ?_⟩
      rw [htaken]
      rfl
    · exact ⟨fun _ => hstop, nofun⟩

/-! ### What a stream carries -/

def heldOut (b : Bridge) : Bytes := b.pendingOut.getD [] ++ b.outbound.flatten

/-- Nothing a stream has accepted is lost: the transport has it, or it waits, and a stream that is done has nothing
waiting and takes nothing more. -/
def Carried (c : Conn) (id : ℕ) (accepted : Bytes) : Option Bridge → Prop
  | some b => accepted = c.sent id ++ heldOut b ∧ (b.finished = true → heldOut b = [] ∧ b.writing = false)
  | none => accepted = c.sent id

theorem sends_pumpOut (c : Conn) (id : ℕ) (b : Bridge) (answers : List SendAnswer) :
    c.Sends id (pumpOut c id b answers).1 := by
  have hsends := sends_sendChunks id c (b.pendingOut.toList ++ b.outbound) answers
  unfold pumpOut
  by_cases hfin : b.finished = true
  · rw [if_pos hfin]
    exact Conn.Sends.refl id c
  rcases hsent : sendChunks id c (b.pendingOut.toList ++ b.outbound) answers with ⟨c', left⟩
  rw [hsent] at hsends
  dsimp only at hsends ⊢
  split_ifs
  · exact hsends
  · exact hsends.trans (c'.sends_streamSend id [] (.written 0))
  · exact hsends

variable (b : Bridge)

theorem flatten_pending : (b.pendingOut.toList ++ b.outbound).flatten = heldOut b := by
  unfold heldOut
  cases b.pendingOut with
  | none | some chunk => rfl

theorem sent_streamSend_nil {c : Conn} (h : c.Within id) :
    (c.streamSend id [] answer).1.sent id = c.sent id := by
  unfold Conn.streamSend
  rw [if_neg fun hlimit => by unfold Conn.Within at h; omega]
  cases answer with
  | written count => simp [Conn.opens]
  | done | stopped => rfl

variable {accepted : Bytes}

theorem carried_pumpOut {b : Bridge} (hwith : c.Within id) (h : Carried c id accepted (some b))
    (hgoing : id ∉ (pumpOut c id b answers).1.stopped) :
    Carried (pumpOut c id b answers).1 id accepted (some (pumpOut c id b answers).2) := by
  have hsends := sends_sendChunks id c (b.pendingOut.toList ++ b.outbound) answers
  have hspec := sendChunks_spec hwith (b.pendingOut.toList ++ b.outbound) answers
  unfold pumpOut at hgoing ⊢
  by_cases hfinished : b.finished = true
  · rw [if_pos hfinished]
    exact h
  rw [if_neg hfinished] at hgoing ⊢
  rcases hsent : sendChunks id c (b.pendingOut.toList ++ b.outbound) answers with ⟨c', pendingOut, outbound, gaveUp⟩
  rw [hsent] at hsends hspec hgoing
  dsimp only at hsends hspec hgoing ⊢
  rw [flatten_pending] at hspec
  cases hgave : gaveUp with
  | true =>
    rw [hgave] at hgoing
    exact absurd (hspec.1 hgave) hgoing
  | false =>
    have haccount : accepted = c'.sent id ++ (pendingOut.getD [] ++ outbound.flatten) := by
      rw [hspec.2 hgave]
      exact h.1
    rw [if_neg Bool.false_ne_true]
    by_cases hdone : pendingOut = none ∧ outbound = [] ∧ b.writing = false
    · rw [if_pos hdone]
      obtain ⟨rfl, rfl, hwr⟩ := hdone
      refine ⟨?_, fun _ => ⟨rfl, hwr⟩⟩
      rw [sent_streamSend_nil (hsends.within hwith)]
      exact haccount
    · rw [if_neg hdone]
      exact ⟨haccount, fun hfin => absurd hfin hfinished⟩

/-- A step of a bridge that leaves its way out alone, but for a task that stops writing. -/
structure SameOut (b b' : Bridge) : Prop where
  pendingOut : b'.pendingOut = b.pendingOut
  outbound : b'.outbound = b.outbound
  finished : b'.finished = b.finished
  writing : b.writing = false → b'.writing = false

theorem Carried.congr {b : Bridge} (h : Carried c id accepted (some b))
    (hsame : SameOut b b') : Carried c id accepted (some b') := by
  have hheld : heldOut b' = heldOut b := by
    unfold heldOut
    rw [hsame.pendingOut, hsame.outbound]
  refine ⟨hheld ▸ h.1, fun hfin => ?_⟩
  rw [hsame.finished] at hfin
  exact ⟨hheld.trans (h.2 hfin).1, hsame.writing (h.2 hfin).2⟩

theorem sameOut_pumpIn (answers : List RecvAnswer) : SameOut b (pumpIn b answers) := by
  induction answers generalizing b with
  | nil =>
    unfold pumpIn
    split_ifs <;> exact ⟨rfl, rfl, rfl, id⟩
  | cons answer answers ih =>
    unfold pumpIn
    split_ifs
    · exact ⟨rfl, rfl, rfl, id⟩
    · exact ⟨rfl, rfl, rfl, id⟩
    · exact ⟨rfl, rfl, rfl, id⟩
    cases answer with
    | reset => exact ⟨rfl, rfl, rfl, id⟩
    | data bytes fin =>
      dsimp only
      split_ifs
      · exact ⟨rfl, rfl, rfl, id⟩
      · exact ⟨rfl, rfl, rfl, id⟩
      · exact ih b
      · exact { ih (b.deliver bytes) with }

theorem sameOut_pollRead (room : ℕ) : SameOut b (b.pollRead room).1 := by
  unfold Bridge.pollRead
  split <;> exact ⟨rfl, rfl, rfl, id⟩

theorem carried_pollWrite {b : Bridge} (h : Carried c id accepted (some b)) (bytes : Bytes) :
    Carried c id (accepted ++ System.taken bytes (b.pollWrite bytes).2) (some (b.pollWrite bytes).1) := by
  unfold Bridge.pollWrite
  split_ifs with hwr hempty hgone hroom
  · simpa [System.taken] using h
  · simpa [System.taken] using h
  · simpa [System.taken] using h
  · refine ⟨?_, fun hfin => absurd (h.2 hfin).2 hwr⟩
    have htaken : bytes.take (min bytes.length Bridge.chunk) = bytes.take Bridge.chunk := by
      rw [← take_take, take_of_length_le]
      exact length_take_le' _ _
    simp only [System.taken, heldOut, flatten_append, flatten_singleton]
    rw [h.1, htaken, heldOut, append_assoc, append_assoc]
  · simpa [System.taken] using h

/-! ### The driver's books -/

/-- What holds in every run: ids are handed out in order, and only streams handed out are served and counted. -/
structure Basic (handed : List ℕ) (d : Driver) : Prop where
  next : 4 ∣ d.nextStreamId
  opened : 4 * d.conn.openedBidi ≤ d.nextStreamId
  ids : ∀ id ∈ handed, id + 4 ≤ d.nextStreamId
  keys : ∀ id b, d.streams.lookup id = some b → id ∈ handed

structure Kept (handed : List ℕ) (accepted : ℕ → Bytes) (d : Driver) : Prop where
  within : ∀ id ∈ handed, d.conn.Within id
  carried : ∀ id ∈ handed, id ∉ d.conn.stopped → Carried d.conn id (accepted id) (d.streams.lookup id)
  fresh : ∀ id ∉ handed, d.conn.sent id = [] ∧ accepted id = []

structure Good (handed : List ℕ) (accepted : ℕ → Bytes) (d : Driver) : Prop
  extends Basic handed d, Kept handed accepted d

section Service

variable {handed : List ℕ} {accepted : ℕ → Bytes} {d : Driver}

theorem Basic.keys_insert {b : Bridge} (h : Basic handed d) (hk : d.streams.lookup k = some b) (b' : Bridge) :
    ∀ id b'', (d.streams.insert k b').lookup id = some b'' → id ∈ handed :=
  forall_lookup_insert (P := fun id _ => id ∈ handed) k (h.keys k b hk) h.keys

theorem Basic.pumpInOf (h : Basic handed d) (turn : ℕ × List RecvAnswer) : Basic handed (d.pumpInOf turn) := by
  unfold Driver.pumpInOf
  cases hlook : d.streams.lookup turn.1 with
  | none => exact h
  | some b => exact ⟨h.next, h.opened, h.ids, h.keys_insert hlook _⟩

theorem Good.pumpInOf (h : Good handed accepted d) (turn : ℕ × List RecvAnswer) :
    Good handed accepted (d.pumpInOf turn) := by
  refine ⟨h.toBasic.pumpInOf turn, ?_⟩
  unfold Driver.pumpInOf
  rcases hlook : d.streams.lookup turn.1 with _ | b
  · exact h.toKept
  refine ⟨h.within, fun id hid hgoing => ?_, h.fresh⟩
  have hcar := h.carried id hid hgoing
  rw [lookup_insert_eq]
  split_ifs with heq
  · subst heq
    rw [hlook] at hcar
    exact hcar.congr (sameOut_pumpIn b turn.2)
  · exact hcar

theorem Basic.pumpOutOf (h : Basic handed d) (turn : ℕ × List SendAnswer) : Basic handed (d.pumpOutOf turn) := by
  unfold Driver.pumpOutOf
  rcases hlook : d.streams.lookup turn.1 with _ | b
  · exact h
  refine ⟨h.next, ?_, h.ids, h.keys_insert hlook _⟩
  have hopen := (sends_pumpOut d.conn turn.1 b turn.2).opened
  have hid := h.ids turn.1 (h.keys turn.1 b hlook)
  have hold := h.opened
  dsimp only
  omega

theorem Good.pumpOutOf (h : Good handed accepted d) (turn : ℕ × List SendAnswer) :
    Good handed accepted (d.pumpOutOf turn) := by
  refine ⟨h.toBasic.pumpOutOf turn, ?_⟩
  unfold Driver.pumpOutOf
  rcases hlook : d.streams.lookup turn.1 with _ | b
  · exact h.toKept
  have hmem := h.keys turn.1 b hlook
  have hsends := sends_pumpOut d.conn turn.1 b turn.2
  refine ⟨fun id hid => hsends.within (h.within id hid), fun id hid hgoing => ?_, fun id hid => ?_⟩
  · have hcar := h.carried id hid fun hstop => hgoing (hsends.stopped id hstop)
    rw [lookup_insert_eq]
    split_ifs with heq
    · subst heq
      rw [hlook] at hcar
      exact carried_pumpOut (h.within turn.1 hid) hcar hgoing
    · unfold Carried at hcar ⊢
      rw [hsends.others id heq]
      exact hcar
  · have hne : id ≠ turn.1 := fun heq => hid (heq ▸ hmem)
    rw [hsends.others id hne]
    exact h.fresh id hid

theorem Basic.sweepOut (h : Basic handed d) : Basic handed d.sweepOut := by
  refine ⟨h.next, h.opened, h.ids, fun id b hb => ?_⟩
  unfold Driver.sweepOut at hb
  rw [lookup_retain, bind_eq_some_iff] at hb
  obtain ⟨b', hb', -⟩ := hb
  exact h.keys id b' hb'

theorem Good.sweepOut (h : Good handed accepted d) : Good handed accepted d.sweepOut := by
  refine ⟨h.toBasic.sweepOut, h.within, fun id hid hgoing => ?_, h.fresh⟩
  have hcar := h.carried id hid hgoing
  unfold Driver.sweepOut
  rw [lookup_retain]
  rcases hlook : d.streams.lookup id with _ | b
  · rw [hlook] at hcar
    exact hcar
  rw [hlook] at hcar
  rw [bind_some]
  split_ifs with hstays
  · exact hcar
  -- only a stream that is done is let go
  have hfinished : b.finished = true := by
    cases hfin : b.finished with
    | true => rfl
    | false => simp [hfin] at hstays
  have hheld := (hcar.2 hfinished).1
  show accepted id = d.conn.sent id
  rw [hcar.1, hheld, append_nil]

theorem Basic.service (h : Basic handed d) (readable : List (ℕ × List RecvAnswer))
    (sweep : List (ℕ × List SendAnswer)) : Basic handed (d.service readable sweep) := by
  have hread := run_kept (I := Basic handed) (fun d turn h => h.pumpInOf turn) readable d h
  exact (run_kept (I := Basic handed) (fun d turn h => h.pumpOutOf turn) sweep _ hread).sweepOut

theorem Good.service (h : Good handed accepted d) (readable : List (ℕ × List RecvAnswer))
    (sweep : List (ℕ × List SendAnswer)) : Good handed accepted (d.service readable sweep) := by
  have hread := run_kept (I := Good handed accepted) (fun d turn h => h.pumpInOf turn) readable d h
  exact (run_kept (I := Good handed accepted) (fun d turn h => h.pumpOutOf turn) sweep _ hread).sweepOut

end Service

/-! ### Runs -/

namespace System

/-- The ids given out, or given up for a requester that was gone, that no send has opened. -/
def unopened (s : System) : ℕ := s.nextStreamId / 4 - s.conn.openedBidi

/-- A request that is granted finds room for the ids that are still to be opened. -/
def Roomy (s : System) : Event → Prop
  | .openBidi true => 0 < s.conn.peerStreamsLeftBidi → s.unopened < s.conn.peerStreamsLeftBidi
  | _ => True

/-- A stream that can be used: its id is within the limit, so that no send on it is refused for that, and every byte it
has accepted was sent or waits to be, unless the stream was reset or closed. -/
structure Usable (s : System) (id : ℕ) : Prop where
  within : s.conn.Within id
  unrefused : ∀ chunk answer, (s.conn.streamSend id chunk answer).2 ≠ .error .streamLimit
  kept : id ∉ s.conn.stopped → s.accepted id = s.conn.sent id ++ (s.streams.lookup id).elim [] heldOut

theorem basic_onStream {s : System} (h : Basic s.handed s.toDriver) (id : ℕ) (act : Bridge → Bridge × Bytes) :
    Basic (s.onStream id act).handed (s.onStream id act).toDriver := by
  unfold onStream
  cases hlook : s.streams.lookup id with
  | none => exact h
  | some b => exact ⟨h.next, h.opened, h.ids, h.keys_insert hlook _⟩

theorem good_onStream {s : System} (h : Good s.handed s.accepted s.toDriver) (id : ℕ) (act : Bridge → Bridge × Bytes)
    (hact : ∀ b, Carried s.conn id (s.accepted id) (some b) →
      Carried s.conn id (s.accepted id ++ (act b).2) (some (act b).1)) :
    Good (s.onStream id act).handed (s.onStream id act).accepted (s.onStream id act).toDriver := by
  refine ⟨basic_onStream h.toBasic id act, ?_⟩
  unfold onStream
  rcases hlook : s.streams.lookup id with _ | b
  · exact h.toKept
  refine ⟨h.within, fun other hother hgoing => ?_, fun other hother => ?_⟩
  · have hcar := h.carried other hother hgoing
    dsimp only
    rw [lookup_insert_eq]
    split_ifs with heq
    · subst heq
      rw [hlook] at hcar
      exact hact b hcar
    · exact hcar
  · have hne : other ≠ id := fun heq => hother (heq ▸ h.keys id b hlook)
    dsimp only
    rw [if_neg hne]
    exact h.fresh other hother

section OpenBidi

variable {s : System}

theorem step_openBidi_refused (h : s.conn.peerStreamsLeftBidi = 0) : s.step (.openBidi present) = s := by
  dsimp only [step]
  rw [Driver.openBidi, if_pos h]

theorem step_openBidi_abandoned (h : s.conn.peerStreamsLeftBidi ≠ 0) :
    s.step (.openBidi false) = { s with nextStreamId := s.nextStreamId + 4 } := by
  dsimp only [step]
  rw [Driver.openBidi, if_neg h]
  rfl

theorem step_openBidi_granted (h : s.conn.peerStreamsLeftBidi ≠ 0) : s.step (.openBidi true) = { s with
        nextStreamId := s.nextStreamId + 4
        streams := s.streams.insert s.nextStreamId Bridge.pair
        handed := s.handed ++ [s.nextStreamId] } := by
  dsimp only [step]
  rw [Driver.openBidi, if_neg h]
  rfl

end OpenBidi

theorem basic_step {s : System} (h : Basic s.handed s.toDriver) (e : Event) :
    Basic (s.step e).handed (s.step e).toDriver := by
  cases e with
  | openBidi present =>
    have hgrow : 4 ∣ s.nextStreamId + 4 := Dvd.dvd.add h.next (dvd_refl 4)
    have hopen : 4 * s.conn.openedBidi ≤ s.nextStreamId + 4 := Nat.le_add_right_of_le h.opened
    have hids : ∀ id ∈ s.handed, id + 4 ≤ s.nextStreamId + 4 := fun id hid => Nat.le_add_right_of_le (h.ids id hid)
    by_cases hleft : s.conn.peerStreamsLeftBidi = 0
    · rw [step_openBidi_refused hleft]
      exact h
    rcases present with _ | _
    · rw [step_openBidi_abandoned hleft]
      exact ⟨hgrow, hopen, hids, h.keys⟩
    rw [step_openBidi_granted hleft]
    refine ⟨hgrow, hopen, fun id hid => ?_, forall_lookup_insert (P := fun id _ => id ∈ s.handed ++ [s.nextStreamId]) _
      (mem_append_right _ mem_cons_self) fun id b hb => mem_append_left _ (h.keys id b hb)⟩
    · obtain hid | hid := mem_append.mp hid
      · exact hids id hid
      · rw [mem_singleton.mp hid]
  | maxStreams limit => exact { h with }
  | service readable sweep => exact h.service readable sweep
  | write id bytes | read id room | shutdown id | drop id => exact basic_onStream h id _

theorem good_step {s : System} (h : Good s.handed s.accepted s.toDriver) (hroom : s.Roomy e) :
    Good (s.step e).handed (s.step e).accepted (s.step e).toDriver := by
  refine ⟨basic_step h.toBasic e, ?_⟩
  cases e with
  | openBidi present =>
    by_cases hleft : s.conn.peerStreamsLeftBidi = 0
    · rw [step_openBidi_refused hleft]
      exact h.toKept
    rcases present with _ | _
    · rw [step_openBidi_abandoned hleft]
      exact { h with }
    rw [step_openBidi_granted hleft]
    have hnew : s.nextStreamId ∉ s.handed := fun hmem => by
      have := h.ids _ hmem
      omega
    refine ⟨fun id hid => ?_, fun id hid hgoing => ?_, fun id hid => ?_⟩
    · obtain hid | hid := mem_append.mp hid
      · exact h.within id hid
      rw [mem_singleton.mp hid]
      have hroom := hroom (Nat.pos_of_ne_zero hleft)
      unfold unopened Conn.peerStreamsLeftBidi at hroom
      unfold Conn.Within
      dsimp only
      omega
    · rw [lookup_insert_eq]
      split_ifs with heq
      · subst heq
        obtain ⟨hsent, hacc⟩ := h.fresh s.nextStreamId hnew
        refine ⟨?_, nofun⟩
        rw [hacc, hsent]
        rfl
      · obtain hid | hid := mem_append.mp hid
        · exact h.carried id hid hgoing
        · exact absurd (mem_singleton.mp hid) heq
    · exact h.fresh id fun hmem => hid (mem_append_left _ hmem)
  | maxStreams limit =>
    refine ⟨fun id hid => ?_, h.carried, h.fresh⟩
    exact lt_of_lt_of_le (h.within id hid) (le_max_left _ _)
  | service readable sweep =>
    exact (h.service readable sweep).toKept
  | write id bytes =>
    have hgood := good_onStream h id (fun b => ((b.pollWrite bytes).1, taken bytes (b.pollWrite bytes).2)) fun b hb =>
      carried_pollWrite hb bytes
    exact hgood.toKept
  | read id room =>
    have hgood := good_onStream h id (fun b => ((b.pollRead room).1, [])) fun b hb => by
      simpa using hb.congr (sameOut_pollRead b room)
    exact hgood.toKept
  | shutdown id =>
    have hgood := good_onStream h id (fun b => (b.pollShutdown, [])) fun b hb => by
      have hsame : SameOut b b.pollShutdown := ⟨rfl, rfl, rfl, fun _ => rfl⟩
      simpa using hb.congr hsame
    exact hgood.toKept
  | drop id =>
    have hgood := good_onStream h id (fun b => (b.dropStream, [])) fun b hb => by
      have hsame : SameOut b b.dropStream := ⟨rfl, rfl, rfl, fun _ => rfl⟩
      simpa using hb.congr hsame
    exact hgood.toKept

theorem good_start (opened limit : ℕ) :
    Good (start opened limit).handed (start opened limit).accepted (start opened limit).toDriver :=
  ⟨⟨dvd_mul_right 4 opened, le_rfl, nofun, nofun⟩, nofun, nofun, fun _ _ => ⟨rfl, rfl⟩⟩

theorem usable_of_good {s : System} (h : Good s.handed s.accepted s.toDriver) {id : ℕ} (hid : id ∈ s.handed) :
    s.Usable id := by
  refine ⟨h.within id hid, fun chunk answer href => ?_, fun hgoing => ?_⟩
  · obtain ⟨count, hok, -⟩ | ⟨hdone, -⟩ | ⟨hstop, -⟩ := Conn.streamSend_spec (h.within id hid) chunk answer
    · rw [hok] at href
      cases href
    · rw [hdone] at href
      cases href
    · rw [hstop] at href
      cases href
  · have hcar := h.carried id hid hgoing
    rcases hlook : s.streams.lookup id with _ | b
    · rw [hlook] at hcar
      rw [elim_none, append_nil]
      exact hcar
    rw [hlook] at hcar
    exact hcar.1

/-- **Streams can be used exactly along the runs** in which every request that is granted finds room for the ids that
are still to be opened. -/
theorem usable_iff (opened limit : ℕ) (es : List Event) :
    (∀ front, front <+: es → ∀ id ∈ (run step (start opened limit) front).handed,
      (run step (start opened limit) front).Usable id) ↔ Along step Roomy (start opened limit) es := by
  constructor
  · intro h
    induction es using List.reverseRecOn with
    | nil => trivial
    | append_singleton es e ih =>
      refine (along_snoc _ _ _).mpr ⟨ih fun front hfront => h front (hfront.trans (prefix_append es [e])), ?_⟩
      have hbasic := run_kept (I := fun s : System => Basic s.handed s.toDriver) (fun s e h => basic_step h e) es _
        (good_start opened limit).toBasic
      have hlast := h (es ++ [e]) (prefix_refl _)
      rw [run_snoc] at hlast
      generalize run step (start opened limit) es = s at hbasic hlast ⊢
      cases e with
      | openBidi present =>
        rcases present with _ | _
        · trivial
        intro hleft
        rw [step_openBidi_granted hleft.ne'] at hlast
        have hwith := (hlast s.nextStreamId (mem_append_right _ mem_cons_self)).within
        unfold Conn.Within at hwith
        unfold unopened Conn.peerStreamsLeftBidi
        unfold Conn.peerStreamsLeftBidi at hleft
        dsimp only at hwith
        omega
      | _ => trivial
  · rintro h front ⟨rest, rfl⟩ id hid
    have hgood := run_invariant (I := fun s : System => Good s.handed s.accepted s.toDriver)
      (fun s e h hroom => good_step h hroom) front _ (good_start opened limit) h.left
    exact usable_of_good hgood hid

/-- A request that is abandoned uses up an id, so that of two requests with room for one stream the second is granted an
id beyond the limit. -/
def abandonedFirst : List Event := [.openBidi false, .openBidi true]

def twoRequests : List Event := [.openBidi true, .openBidi true]

/-- The stream with id 4 is handed out where the limit is one stream; the byte its task writes is accepted, and no
longer anywhere after the next pass. -/
theorem handed_beyond_limit : (run step (start 0 1) abandonedFirst).handed = [4] ∧
    (run step (start 0 1) twoRequests).handed = [0, 4] ∧
    ¬ (run step (start 0 1) twoRequests).Usable 4 ∧ (∀ first ∈ [abandonedFirst, twoRequests],
      let s := run step (start 0 1) (first ++ [.write 4 [7], .service [] [(4, [.written 1])]])
      s.accepted 4 = [7] ∧ s.conn.sent 4 = [] ∧ (s.streams.lookup 4).elim [] heldOut = [] ∧ 4 ∉ s.conn.stopped) := by
  refine ⟨by decide +kernel, by decide +kernel, fun h => ?_, by decide +kernel⟩
  have hwith := h.within
  have hlimit : (run step (start 0 1) twoRequests).conn.maxStreamsBidi = 1 := by decide +kernel
  unfold Conn.Within at hwith
  omega

end System

end Boreas.Quic
