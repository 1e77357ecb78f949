import Boreas.Demux
import Boreas.DnsWritten
import Boreas.HttpResponse

/-! # Length-prefixed replies on an upstream connection

`Frames::recv` of policy/upstream.rs under the driver of `Demux`.  A length over the accepted message size is an error
of the connection, and the driver lets all of its callers down.

`isolated_iff`: in every state that a run reaches, receiving ends the wait of no caller but the reply's owner, and a
reply reaches the caller it answers, exactly when the length at the front is accepted or no other caller waits. -/

namespace Boreas.Demux

open Dns Runs World
open Http1 (maxDnsMessage)
open UInt16 (ofNat)

inductive Front
  | message (bytes rest : Bytes)
  | refused
  | incomplete
  deriving DecidableEq

def front : Bytes → Front
  | high :: low :: rest =>
    let length := fromBeBytes high low
    if maxDnsMessage < length then .refused
    else if length ≤ rest.length then .message (rest.take length) (rest.drop length)
    else .incomplete
  | _ => .incomplete

theorem u16At_of_front (h : front buffer = .message bytes rest) (hid : u16At bytes 0 = some n) :
    u16At buffer 2 = some n := by
  unfold front at h
  split at h
  · dsimp only at h
    split_ifs at h
    cases h
    refine u16At_of_stands (fun j hj => ?_) (u16At_lt hid)
    have hread := stands_of_u16At hid j hj
    rw [List.getElem?_take, Nat.zero_add] at hread
    split_ifs at hread
    · rw [← hread, Nat.add_comm]
      simp
    · rw [List.getElem?_eq_getElem hj] at hread
      cases hread
  · cases h

structure Frames where
  world : World
  buffer : Bytes

namespace Frames

def new (next : UInt16) : Frames := ⟨.new next, []⟩

/-- The driver's branch for the transport, with what a read returns if there is one: nothing at the end of the
stream. -/
def recv (s : Frames) (chunk : Bytes) : Frames :=
  match front s.buffer with
  | .message bytes rest => ⟨s.world.step (.reply bytes), rest⟩
  | .refused => { s with world := s.world.step .ends }
  | .incomplete =>
    if chunk = [] then { s with world := s.world.step .ends } else { s with buffer := s.buffer ++ chunk }

inductive Turn
  | recv (chunk : Bytes)
  | other (e : Event)

def step (s : Frames) : Turn → Frames
  | .recv chunk => s.recv chunk
  | .other e => { s with world := s.world.step e }

theorem inv_step (s : Frames) (t : Turn) (h : s.world.Inv) : (s.step t).world.Inv := by
  cases t with
  | other e => exact World.inv_step h e
  | recv chunk =>
    simp only [step, recv]
    cases front s.buffer with
    | message bytes rest => exact World.inv_step h (.reply bytes)
    | refused => exact World.inv_step h .ends
    | incomplete =>
      dsimp only
      split_ifs
      · exact World.inv_step h .ends
      · exact h

/-- `owner` is the wire id of the reply whose length stands at the front, as far as it has arrived. -/
def Belongs (buffer : Bytes) (owner : UInt16) : Prop := ∀ id, u16At buffer 2 = some id → owner = ofNat id

/-- No caller's wait ends but that of the reply's owner, and a reply reaches the caller that it answers. -/
def Isolates (s : Frames) (chunk : Bytes) (owner : UInt16) : Prop :=
  (∀ i id, id ≠ owner → s.world.Waits i id → (s.recv chunk).world.Waits i id) ∧
  ∀ bytes rest, front s.buffer = .message bytes rest → ∀ i given, s.world.Answers bytes i given →
    (s.recv chunk).world.statusAt i = some (.answered given)

variable {w : World} {s : Frames} {chunk : Bytes}

theorem not_waits_finish (id : UInt16) : ¬w.finish.Waits i id := by
  rintro ⟨c, hc, -, hstat⟩
  simp only [World.finish, List.getElem?_map, Option.map_eq_some_iff] at hc
  obtain ⟨c, -, rfl⟩ := hc
  exact c.fail_not_waiting id hstat

theorem reply_isolates (h : w.Inv) (halive : w.alive = true) (bytes : Bytes)
    (howner : ∀ id, u16At bytes 0 = some id → owner = ofNat id) :
    (∀ i id, id ≠ owner → w.Waits i id → (w.step (.reply bytes)).Waits i id) ∧
      ∀ i given, w.Answers bytes i given → (w.step (.reply bytes)).statusAt i = some (.answered given) := by
  have hstep : w.step (.reply bytes) = w.answer bytes := by simp [World.step, halive]
  rw [hstep]
  obtain heq | ⟨parsed, j, c, hparse, hresp, hc, hstat, hques, honly, heq⟩ := World.answer_cases h bytes
  · rw [heq]
    refine ⟨fun _ _ _ hwaits => hwaits, ?_⟩
    -- A caller that the reply answers is in the table, so that the reply is claimed.
    rintro i given ⟨parsed, c, hparse, hresp, hc, hopen, hstat, hques, rfl⟩
    obtain ⟨waiter, hlook, rfl⟩ := h.held i _ ⟨c, hc, hopen, hstat⟩
    obtain ⟨c', hc', -, hasked, -⟩ := h.tied _ waiter hlook
    rw [hc] at hc'
    cases hc'
    have hclaimed := congrArg World.callers heq
    simp only [World.answer, Pending.claim, hparse, hresp, hlook, ← hasked, hques, if_true, ne_eq,
      not_true_eq_false, if_false] at hclaimed
    have hsame := congrArg (·[waiter.reply]?) hclaimed
    simp only [List.getElem?_modify_eq, hc, Option.map_eq_map, Option.map_some, Caller.receive, hopen,
      Bool.false_eq_true, if_false, Option.some.injEq] at hsame
    rw [← hsame] at hstat
    cases hstat
  · rw [heq]
    constructor
    · rintro i id hne ⟨c', hc', hopen, hwait⟩
      refine ⟨c', ?_, hopen, hwait⟩
      rw [howner _ (parsed_of_parse hparse).id] at hne
      have hij : j ≠ i := by
        rintro rfl
        rw [hc] at hc'
        cases hc'
        rw [hstat] at hwait
        exact hne (Status.waiting.inj hwait).symm
      simpa [hij] using hc'
    · rintro i given ⟨parsed', c', hparse', -, hc', hopen, hstat', -, rfl⟩
      rw [hparse] at hparse'
      cases hparse'
      obtain rfl := honly i ⟨c', hc', hopen, hstat'⟩
      rw [hc] at hc'
      cases hc'
      simp [World.statusAt, hc, Caller.receive, hopen]

/-- **Callers that share a connection.**  What a reply declares and contains ends the wait of no caller but its owner,
exactly when its length is accepted or no other caller waits. -/
theorem isolated_iff (next : UInt16) (turns : List Turn) (chunk : Bytes) (owner : UInt16) (hchunk : chunk ≠ [])
    (halive : (run step (new next) turns).world.alive = true)
    (howner : Belongs (run step (new next) turns).buffer owner) :
    (run step (new next) turns).Isolates chunk owner ↔ (front (run step (new next) turns).buffer = .refused →
      ∀ i id, (run step (new next) turns).world.Waits i id → id = owner) := by
  have hinv : (run step (new next) turns).world.Inv :=
    run_kept (I := fun s : Frames => s.world.Inv) inv_step turns (new next) (World.inv_new next)
  generalize run step (new next) turns = s at *
  unfold Isolates recv
  cases hfront : front s.buffer with
  | message bytes rest =>
    have hreply := reply_isolates hinv halive bytes fun id hid => howner id (u16At_of_front hfront hid)
    refine iff_of_true ⟨hreply.1, fun bytes' rest' heq => ?_⟩ fun h => by cases h
    cases heq
    exact hreply.2
  | incomplete =>
    dsimp only
    rw [if_neg hchunk]
    exact iff_of_true ⟨fun _ _ _ hwaits => hwaits, fun _ _ h => by cases h⟩ fun h => by cases h
  | refused =>
    have hends : s.world.step .ends = s.world.finish := by simp [World.step, halive]
    dsimp only
    rw [hends]
    constructor
    · rintro ⟨hk, -⟩ - i id hi
      by_contra hne
      exact not_waits_finish _ (hk i id hne hi)
    · exact fun honly => ⟨fun i id hne hi => absurd (honly rfl i id hi) hne, fun _ _ h => by cases h⟩

def asking (id flags qtype : UInt8) : Bytes := [0x12, id, flags, 0, 0, 1, 0, 0, 0, 0, 0, 0, 0, 0, qtype, 0, 1]

/-- Two callers with their queries on the connection. -/
def twoQueries : List Turn :=
  [.other (.request (asking 0x34 1 1) false true), .other (.request (asking 0x35 1 28) false true)]

theorem isolated_reply :
    (run step (new 0x1200) (twoQueries ++ [.recv ([0, 17] ++ asking 1 0x81 28)])).Isolates [0] 0x1201 :=
  (isolated_iff 0x1200 (twoQueries ++ [.recv ([0, 17] ++ asking 1 0x81 28)]) [0] 0x1201 (by decide)
    (by decide +kernel) fun _ hid => by cases hid; rfl).mpr fun href => absurd href (by decide +kernel)

/-- A reply that declares 4097 bytes: both callers fail as its length arrives. -/
theorem oversized_fails_all :
    let s := run step (new 0x1200) (twoQueries ++ [.recv [0x10, 1]])
    (∃ id, s.world.statusAt 0 = some (.waiting id)) ∧ (∃ id, s.world.statusAt 1 = some (.waiting id)) ∧
      (s.recv [0x12]).world.statusAt 0 = some .failed ∧ (s.recv [0x12]).world.statusAt 1 = some .failed :=
  ⟨⟨0x1200, by decide +kernel⟩, ⟨0x1201, by decide +kernel⟩, by decide +kernel, by decide +kernel⟩

end Frames

end Boreas.Demux
