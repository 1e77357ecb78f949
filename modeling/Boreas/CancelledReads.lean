import Boreas.UpstreamFrames

/-! # Dropped calls of `recv`

`Frames` of policy/upstream.rs writes and reads length-prefixed messages, and its caller drops `recv` at any read that
waits.  The bytes stay in the buffer, so no message is lost or repeated (`recv_dropped`). -/

namespace Boreas.Demux

open Http1 (maxDnsMessage)
open List Runs

def framed (message : Bytes) : Bytes := toBeBytes message.length ++ message

def send (message : Bytes) : Option Bytes := if message.length ≤ 65535 then some (framed message) else none

/-- `recv` with the reads that return before the call is dropped: what it leaves in the buffer, the reads it did not
make, and what it returns unless it is still waiting.  A read of nothing is the end of the stream. -/
def recv : Bytes → List Bytes → Bytes × List Bytes × Option (Except Unit Bytes)
  | buffer, reads =>
    match front buffer with
    | .message bytes rest => (rest, reads, some (.ok bytes))
    | .refused => (buffer, reads, some (.error ()))
    | .incomplete =>
      match reads with
      | [] => (buffer, [], none)
      | chunk :: reads => if chunk = [] then (buffer, reads, some (.error ())) else recv (buffer ++ chunk) reads

/-- The transport: its buffer, the reads still to come, and what the calls have returned. -/
structure Receiving where
  buffer : Bytes
  reads : List Bytes
  returned : List (Except Unit Bytes)

/-- A call of `recv` that is dropped if it waits after so many reads. -/
def Receiving.call (s : Receiving) (patience : ℕ) : Receiving :=
  let (buffer, left, outcome) := recv s.buffer (s.reads.take patience)
  ⟨buffer, left ++ s.reads.drop patience, s.returned ++ outcome.toList⟩

variable {messages : List Bytes} {buffer more : Bytes} {reads : List Bytes}

theorem front_message (h : message.length ≤ maxDnsMessage) (rest : Bytes) :
    front (framed message ++ rest) = .message message rest := by
  unfold framed toBeBytes front
  simp only [cons_append]
  rw [fromBeBytes_toBeBytes (by unfold maxDnsMessage at h; omega), if_neg (by omega)]
  simp

theorem front_incomplete (h : message.length ≤ maxDnsMessage) (hmore : more ≠ [])
    (hfr : framed message = buffer ++ more) : front buffer = .incomplete := by
  match buffer with
  | [] | [_] => rfl
  | high :: low :: rest =>
    injection hfr with hhigh htail
    injection htail with hlow hrest
    have := length_pos_iff.mpr hmore
    have hlen := congrArg length (show message = rest ++ more from hrest)
    rw [length_append] at hlen
    dsimp only [front]
    rw [← hhigh, ← hlow, fromBeBytes_toBeBytes (by unfold maxDnsMessage at h; omega), if_neg (by omega),
      if_neg (by omega)]

/-- The front of what has arrived of some messages: the first of them, or nothing yet. -/
theorem front_arrived (h : ∀ m ∈ messages, m.length ≤ maxDnsMessage)
    (hbytes : buffer ++ more = messages.flatMap framed) :
    (front buffer = .incomplete ∧ (more = [] → messages = [])) ∨ ∃ m later rest, messages = m :: later ∧
      front buffer = .message m rest ∧ rest ++ more = later.flatMap framed := by
  rcases messages with _ | ⟨m, later⟩
  · rw [flatMap_nil, append_eq_nil_iff] at hbytes
    rw [hbytes.1]
    exact .inl ⟨rfl, fun _ => rfl⟩
  have hm := h m mem_cons_self
  rcases append_eq_append_iff.mp hbytes with ⟨as, hfr, hmore⟩ | ⟨rest, hbuf, hlater⟩
  · rcases as with _ | ⟨byte, as⟩
    · rw [append_nil] at hfr
      refine .inr ⟨m, later, [], rfl, ?_, hmore⟩
      rw [← hfr, ← append_nil (framed m)]
      exact front_message hm []
    refine .inl ⟨front_incomplete hm (cons_ne_nil _ _) hfr, fun hnil => ?_⟩
    rw [hnil] at hmore
    cases hmore
  · exact .inr ⟨m, later, rest, rfl, hbuf ▸ front_message hm rest, hlater.symm⟩

/-- A call returns the next message or waits, and leaves the bytes of the others. -/
theorem recv_arrived (h : ∀ m ∈ messages, m.length ≤ maxDnsMessage) (hreads : ∀ chunk ∈ reads, chunk ≠ [])
    (hbytes : buffer ++ (reads.flatten ++ more) = messages.flatMap framed) :
    (∃ buf', recv buffer reads = (buf', [], none) ∧ buf' ++ more = messages.flatMap framed ∧
        (more = [] → messages = [])) ∨
      ∃ m later buf' left, messages = m :: later ∧ recv buffer reads = (buf', left, some (.ok m)) ∧
        left <:+ reads ∧ buf' ++ (left.flatten ++ more) = later.flatMap framed := by
  induction reads generalizing buffer with
  | nil =>
    rcases front_arrived h hbytes with ⟨hfront, hnone⟩ | ⟨m, later, rest, hm, hfront, hrest⟩
    · refine .inl ⟨buffer, ?_, hbytes, hnone⟩
      rw [recv, hfront]
    · refine .inr ⟨m, later, rest, [], hm, ?_, suffix_refl _, hrest⟩
      rw [recv, hfront]
  | cons chunk reads ih =>
    rcases front_arrived h hbytes with ⟨hfront, -⟩ | ⟨m, later, rest, hm, hfront, hrest⟩
    · rw [recv, hfront]
      rw [if_neg (hreads chunk mem_cons_self)]
      have hlater : (buffer ++ chunk) ++ (reads.flatten ++ more) = messages.flatMap framed := by simpa using hbytes
      refine (ih (fun c hc => hreads c (mem_cons_of_mem _ hc)) hlater).imp_right
        fun ⟨m, later, buf', left, hm, hrecv, hleft, hrest⟩ =>
        ⟨m, later, buf', left, hm, hrecv, hleft.trans (suffix_cons _ _), hrest⟩
    · refine .inr ⟨m, later, rest, chunk :: reads, hm, ?_, suffix_refl _, hrest⟩
      rw [recv, hfront]

/-- What has been returned and what is still to be are the messages; the buffer and the reads hold the latter. -/
structure Receiving.Owes (messages left : List Bytes) (s : Receiving) : Prop where
  returned : s.returned ++ left.map .ok = messages.map .ok
  bytes : s.buffer ++ s.reads.flatten = left.flatMap framed
  reads : ∀ chunk ∈ s.reads, chunk ≠ []

theorem Receiving.Owes.call {s : Receiving} (howes : s.Owes messages left)
    (h : ∀ m ∈ messages, m.length ≤ maxDnsMessage) (patience : ℕ) :
    ∃ left', (s.call patience).Owes messages left' ∧ (s.call patience).reads.length ≤ s.reads.length ∧
      (s.reads.length ≤ patience → left'.length = left.length - 1) := by
  have hleft : ∀ m ∈ left, m.length ≤ maxDnsMessage := fun m hm => by
    have hmem : (Except.ok m : Except Unit Bytes) ∈ s.returned ++ left.map .ok :=
      mem_append_right _ (mem_map_of_mem hm)
    rw [howes.returned] at hmem
    obtain ⟨_, hm, ⟨⟩⟩ := mem_map.mp hmem
    exact h m hm
  have hreads : ∀ chunk ∈ s.reads.take patience, chunk ≠ [] := fun chunk hc => howes.reads chunk (mem_of_mem_take hc)
  have hbytes : s.buffer ++ ((s.reads.take patience).flatten ++ (s.reads.drop patience).flatten) =
      left.flatMap framed := by
    rw [← flatten_append, take_append_drop, howes.bytes]
  unfold Receiving.call
  rcases recv_arrived hleft hreads hbytes with
    ⟨buffer, hrecv, hrest, hnone⟩ | ⟨m, later, buffer, unread, rfl, hrecv, hunr, hrest⟩
  · rw [hrecv]
    refine ⟨left, ⟨?_, hrest, fun chunk hc => howes.reads chunk (mem_of_mem_drop hc)⟩, by simp, fun hpatient => ?_⟩
    · simpa using howes.returned
    · rw [hnone (by rw [drop_of_length_le hpatient]; rfl)]
      rfl
  · rw [hrecv]
    refine ⟨later, ⟨?_, ?_, fun chunk hc => ?_⟩, ?_, fun _ => rfl⟩
    · simpa using howes.returned
    · simpa using hrest
    · rcases mem_append.mp hc with hc | hc
      · exact hreads chunk (hunr.subset hc)
      · exact howes.reads chunk (mem_of_mem_drop hc)
    · have := hunr.length_le
      simp only [length_append, length_drop, length_take] at this ⊢
      omega

theorem Receiving.Owes.calls {s : Receiving} (howes : s.Owes messages left)
    (h : ∀ m ∈ messages, m.length ≤ maxDnsMessage) (calls : List ℕ) :
    ∃ left', (run Receiving.call s calls).Owes messages left' ∧
      (run Receiving.call s calls).reads.length ≤ s.reads.length ∧
      ((∀ patience ∈ calls, s.reads.length ≤ patience) → left'.length = left.length - calls.length) := by
  induction calls generalizing s left with
  | nil => exact ⟨left, howes, le_refl _, fun _ => rfl⟩
  | cons patience calls ih =>
    obtain ⟨left', howes', hlen, hpatient⟩ := howes.call h patience
    obtain ⟨left'', howes'', hlen', hcalls⟩ := ih howes'
    refine ⟨left'', howes'', hlen'.trans hlen, fun hall => ?_⟩
    rw [hcalls fun k hk => hlen.trans (hall k (mem_cons_of_mem _ hk)), hpatient (hall _ mem_cons_self), length_cons]
    omega

theorem mapM_send (h : ∀ m ∈ messages, m.length ≤ maxDnsMessage) :
    messages.mapM send = some (messages.map framed) := by
  induction messages with
  | nil => rfl
  | cons m messages ih =>
    have hm := h m mem_cons_self
    unfold maxDnsMessage at hm
    rw [mapM_cons, ih fun m hm => h m (mem_cons_of_mem _ hm), send, if_pos (by omega)]
    rfl

/-- **Dropped calls lose nothing.** The calls that complete return the messages in order and each once, and calls that
are not dropped return all that are left. -/
theorem recv_dropped (h : ∀ m ∈ messages, m.length ≤ maxDnsMessage) (hreads : ∀ chunk ∈ reads, chunk ≠ [])
    (hsent : messages.mapM send = some frames) (hbytes : reads.flatten = frames.flatten) (calls : List ℕ) :
    (run Receiving.call ⟨[], reads, []⟩ calls).returned <+: messages.map .ok ∧
      ∀ n, messages.length ≤ n → (run Receiving.call ⟨[], reads, []⟩
        (calls ++ replicate n reads.length)).returned = messages.map .ok := by
  cases (mapM_send h).symm.trans hsent
  have hstart : (⟨[], reads, []⟩ : Receiving).Owes messages messages := ⟨rfl, hbytes, hreads⟩
  obtain ⟨left, howes, hlen, -⟩ := hstart.calls h calls
  refine ⟨⟨_, howes.returned⟩, fun n hn => ?_⟩
  obtain ⟨left', howes', -, hall⟩ := howes.calls h (replicate n reads.length)
  have hcount := congrArg length howes.returned
  rw [length_append, length_map, length_map] at hcount
  have hnil : left' = [] := by
    rw [← length_eq_zero_iff, hall fun patience hp => (eq_of_mem_replicate hp) ▸ hlen, length_replicate]
    omega
  rw [run_append, ← howes'.returned, hnil, map_nil, append_nil]

/-- Two messages in reads of one byte, with calls dropped after one and three of them. -/
theorem recv_dropped_twice :
    (run Receiving.call ⟨[], [[0], [1], [7], [0], [2], [8], [9]], []⟩ ([1, 3] ++ replicate 2 7)).returned =
      [[7], [8, 9]].map .ok :=
  (@recv_dropped [[7], [8, 9]] _ [[0, 1, 7], [0, 2, 8, 9]] (by decide) (by decide) (by decide) (by decide) [1, 3]).2 2
    (by decide)

end Boreas.Demux
