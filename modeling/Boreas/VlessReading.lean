import Boreas.Vless

/-! # What is read of a VLESS stream

`read_datagrams` as a run: reads of the stream, cut anywhere, between changes that others make to the queue.
`offers_frames` says that it offers the payloads of the frames that are not empty, each once and in order. -/

namespace Boreas.Vless

open List Reading Runs

/-- A frame of which bytes are missing. -/
def Unfinished (rest : Bytes) : Prop := ∃ payload : Bytes, payload.length < 65536 ∧ rest <+: frame payload ∧
  rest.length < (frame payload).length

theorem drainFrames_unfinished (h : Unfinished rest) : drainFrames rest = ([], rest) := by
  obtain ⟨payload, hlen, ⟨missing, hframe⟩, hshort⟩ := h
  rw [drainFrames]
  split
  · rfl
  rename_i length after hread
  have hwhole := Reader.u16_more hread missing
  rw [hframe, frame, Reader.u16_toBeBytes hlen] at hwhole
  cases hwhole
  rw [if_pos]
  simpa [frame, length_toBeBytes, Nat.add_comm] using hshort

/-! ### The reader of one stream -/

/-- A read of the stream, or what the others who use the queue have made of it. -/
inductive Move
  | read (read : Read)
  | others (queue : List (Bytes × Target))

/-- The reader of a stream; `offered` are the replies it has offered to the queue so far. -/
structure Task where
  reading : Reading
  inbound : Channel (Bytes × Target)
  offered : List (Bytes × Target)

def Task.step (target : Target) (t : Task) : Move → Task
  | .read read =>
    let (reading, payloads) := t.reading.next read
    ⟨reading, offer t.inbound target payloads, t.offered ++ payloads.map (·, target)⟩
  | .others queue => { t with inbound := { t.inbound with queue := queue } }

def Move.chunk : Move → Bytes
  | .read r => bytesOf r
  | .others _ => []

/-- A read before the end of the stream. -/
def Move.Goes : Move → Prop
  | .read r => bytesOf r ≠ []
  | .others _ => True

theorem extend_open (h : ∀ e, decodeResponse stream ≠ .error e) : (fresh.extend stream).1.ended = false := by
  cases hdec : decodeResponse stream with
  | error e => exact absurd hdec (h e)
  | ok decoded => cases decoded <;> simp [extend, fresh, framesOf, hdec]

variable {target : Target}

theorem run_reads (hgoes : ∀ m ∈ moves, m.Goes)
    (h : ∀ e, decodeResponse (moves.flatMap Move.chunk) ≠ .error e) :
    let t := run (Task.step target) ⟨.fresh, inbound, []⟩ moves
    let read := Reading.fresh.extend (moves.flatMap Move.chunk)
    t.reading = read.1 ∧ t.offered = read.2.map (·, target) := by
  induction moves using List.reverseRecOn with
  | nil => exact ⟨rfl, rfl⟩
  | append_singleton moves m ih =>
    rw [flatMap_append] at h
    have hpre : ∀ e, decodeResponse (moves.flatMap Move.chunk) ≠ .error e := by
      intro e he
      refine h e ?_
      rw [decodeResponse_append (by simp [he]), he]
    obtain ⟨hread, hoff⟩ := ih (fun m hm => hgoes m (mem_append_left _ hm)) hpre
    rw [run_snoc, flatMap_append, flatMap_singleton]
    cases m with
    | others queue => simpa [Task.step, Move.chunk] using ⟨hread, hoff⟩
    | read r =>
      have hgoes := hgoes (.read r) (by simp)
      match r, hgoes with
      | .error _, hgoes => exact absurd rfl hgoes
      | .ok [], hgoes => exact absurd rfl hgoes
      | .ok (b :: chunk), _ =>
        have hmove : (Move.read (.ok (b :: chunk))).chunk = b :: chunk := rfl
        simp only [Task.step, hread, hoff, Reading.next, extend_open hpre, Bool.false_eq_true, if_false, hmove,
          extend_append (extend_open hpre), map_append, and_self]

/-- **What is offered of a stream.** However a stream of a header and frames is cut into reads, and whatever the queue
does meanwhile, the reader has offered the payloads of the frames that are not empty, in order and each once, and
nothing of a frame that is not finished; what the queue has no room for it goes past. -/
theorem offers_frames (target : Target) (inbound : Channel (Bytes × Target)) {header rest : Bytes}
    {payloads : List Bytes} (hheader : Header header) (hpayloads : ∀ p ∈ payloads, p.length < 65536)
    (hrest : Unfinished rest) {moves : List Move} (hgoes : ∀ m ∈ moves, m.Goes)
    (hstream : moves.flatMap Move.chunk = header ++ payloads.flatMap frame ++ rest) :
    (run (Task.step target) ⟨.fresh, inbound, []⟩ moves).offered = (payloads.filter (· ≠ [])).map (·, target) ∧
      ∀ (t : Task) (read : Read), ∃ news : List (Bytes × Target),
        (t.step target (.read read)).offered = t.offered ++ news ∧ (t.step target (.read read)).inbound.queue =
          t.inbound.queue ++ news.take (t.inbound.capacity - t.inbound.queue.length) := by
  have hdec : decodeResponse (moves.flatMap Move.chunk) = .ok (.complete () header.length) := by
    rw [hstream, append_assoc, decodeResponse_header hheader]
  refine ⟨?_, fun t read => ⟨(t.reading.next read).2.map (·, target), rfl, ?_⟩⟩
  · rw [(run_reads hgoes (by simp [hdec])).2]
    simp only [extend, fresh, nil_append, Bool.false_eq_true, if_false, hdec]
    rw [hstream, append_assoc, drop_left, framesOf, drainFrames_frames hpayloads, drainFrames_unfinished hrest,
      append_nil]
  · exact congrArg Channel.queue (offer_queue t.inbound (t.reading.next read).2)

def anyTarget : Target := .ip ⟨.v4 0, 53⟩

/-- A header and three frames, the second one empty, in three reads, with the first byte of a fourth frame. -/
theorem offers_frames_cut : (run (Task.step anyTarget) ⟨.fresh, ⟨64, []⟩, []⟩
    [.read (.ok [0]), .read (.ok [0, 0, 1]), .others [], .read (.ok [7, 0, 0, 0, 1, 8, 0])]).offered =
      [([7], anyTarget), ([8], anyTarget)] :=
  (offers_frames anyTarget ⟨64, []⟩ (show Header [0, 0] from ⟨0, [], rfl, rfl⟩)
    (show ∀ p ∈ [[7], [], [8]], p.length < 65536 by decide)
    (show Unfinished [0] from ⟨[], by decide, ⟨[0], rfl⟩, by decide⟩)
    (by simp [Move.Goes, bytesOf, Except.toOption]) rfl).1

end Boreas.Vless
