import Boreas.Dns
import Boreas.Runs
import Boreas.Table

/-! # Many queries on one upstream connection

`Demux` of policy/demux.rs gives each query an id that is unused on the connection, and routes a reply back by that id
when it answers the same question.  The world has the callers beside the driver's table: `Tied` and `Held` relate the
two in every run (`inv_run`), and `demultiplexed_run` reads the promises off them. -/

namespace Boreas.Demux

open List hiding next
open Dns Runs Table
open UInt16 (ofNat toNat)
open Message (parse)

/-! ### The table of waiters -/

def maxPending : ℕ := 1024

def idBytes : ℕ := 2

/-- A waiter: the id and the question of its query, and the caller that its sender answers. -/
structure Waiter where
  original : Bytes
  question : Question
  reply : ℕ

structure Pending where
  byId : Table UInt16 Waiter
  next : UInt16

namespace Pending

def new (next : UInt16) : Pending := ⟨∅, next⟩

variable (closed : ℕ → Bool)

variable (p : Pending)

def sweep : Pending :=
  { p with byId := p.byId.retain fun _ waiter => if closed waiter.reply then none else some waiter }

def free (id : UInt16) : Bool :=
  match p.byId.lookup id with
  | none => true
  | some held => closed held.reply

def search (free : UInt16 → Bool) : ℕ → UInt16 → Option (UInt16 × UInt16)
  | 0, _ => none
  | candidates + 1, candidate =>
    if free candidate then some (candidate, candidate + 1) else search free candidates (candidate + 1)

def makeRoom : Pending :=
  if maxPending ≤ p.byId.size then p.sweep closed else p

def admitWaiter (waiter : Waiter) : Pending × Option UInt16 :=
  let p := p.makeRoom closed
  if maxPending ≤ p.byId.size then (p, none)
  else
    match search (p.free closed) 65536 p.next with
    | none => (p, none)
    | some (id, next) => (⟨p.byId.insert id waiter, next⟩, some id)

def claim (reply : Bytes) : Pending × Option Waiter :=
  match parse reply with
  | .error _ => (p, none)
  | .ok parsed =>
    if parsed.isResponse then
      match p.byId.lookup (ofNat parsed.id) with
      | none => (p, none)
      | some waiter =>
        if waiter.question ≠ parsed.question then (p, none)
        else ({ p with byId := p.byId.erase (ofNat parsed.id) }, some waiter)
    else (p, none)

end Pending

/-! ### Callers and the driver -/

inductive Status
  | waiting (id : UInt16)
  | answered (reply : Bytes)
  | refused
  | failed
deriving DecidableEq, Repr

def Status.isWaiting : Status → Bool
  | .waiting _ => true
  | _ => false

/-- A caller of `query`: its message and question, whether it has stopped waiting, and what became of the query. -/
structure Caller where
  message : Bytes
  question : Question
  abandoned : Bool
  status : Status

namespace Caller

def fail (c : Caller) : Caller :=
  match c.status with
  | .waiting _ => { c with status := .failed }
  | _ => c

/-- The oneshot sender's `send`: it fails when the caller has gone. -/
def receive (reply : Bytes) (c : Caller) : Caller :=
  if c.abandoned then c else { c with status := .answered reply }

theorem fail_not_waiting (c : Caller) (id : UInt16) : c.fail.status ≠ .waiting id := by
  unfold fail
  cases hstat : c.status <;> simp [hstat]

end Caller

structure World where
  pending : Pending
  callers : List Caller
  alive : Bool

/-- A request reaches the driver, perhaps when its caller has gone already, and its message is sent or not; a reply
arrives; a caller stops waiting; the sweep is due; the connection ends, or sits idle. -/
inductive Event
  | request (message : Bytes) (gone sent : Bool)
  | reply (bytes : Bytes)
  | abandon (caller : ℕ)
  | sweep
  | ends

namespace World

def new (next : UInt16) : World := ⟨.new next, [], true⟩

variable (w : World)

/-- `is_closed` of a caller's sender. -/
def closed (caller : ℕ) : Bool := (w.callers[caller]?).any Caller.abandoned

def finish : World := ⟨.new w.pending.next, w.callers.map Caller.fail, false⟩

def request (message : Bytes) (gone sent : Bool) : World :=
  match parse message with
  | .error _ => w
  | .ok parsed =>
    let waiter : Waiter := ⟨message.take idBytes, parsed.question, w.callers.length⟩
    let caller := Caller.mk message parsed.question gone
    match w.pending.admitWaiter w.closed waiter with
    | (pending, none) => { w with pending := pending, callers := w.callers ++ [caller .refused] }
    | (pending, some id) =>
      let w := { w with pending := pending, callers := w.callers ++ [caller (.waiting id)] }
      if sent then w else w.finish

def answer (reply : Bytes) : World :=
  match w.pending.claim reply with
  | (pending, none) => { w with pending := pending }
  | (pending, some waiter) =>
    { w with
      pending := pending
      callers := w.callers.modify waiter.reply (Caller.receive (waiter.original ++ reply.drop idBytes)) }

def step : Event → World
  | .abandon caller => { w with callers := w.callers.modify caller fun c => { c with abandoned := true } }
  | .request message gone sent => if w.alive then w.request message gone sent else w
  | .reply bytes => if w.alive then w.answer bytes else w
  | .sweep => if w.alive then { w with pending := w.pending.sweep w.closed } else w
  | .ends => if w.alive then w.finish else w

end World

/-! ### A free id is found -/

namespace Pending

variable {closed : ℕ → Bool} {p : Pending}

theorem search_none {free : UInt16 → Bool}
    (h : search free candidates candidate = none) : ∀ k < candidates, free (candidate + ofNat k) = false := by
  induction candidates generalizing candidate with
  | zero => simp
  | succ candidates ih =>
    unfold search at h
    cases hfree : free candidate with
    | true => simp [hfree] at h
    | false =>
      simp only [hfree] at h
      intro k hk
      cases k with
      | zero => simpa using hfree
      | succ k =>
        have hnext := ih h k (by omega)
        rwa [add_assoc, show 1 + ofNat k = ofNat (k + 1) by simp [add_comm]] at hnext

theorem search_some {free : UInt16 → Bool} {id next : UInt16}
    (h : search free candidates candidate = some (id, next)) : free id = true := by
  induction candidates generalizing candidate with
  | zero => simp [search] at h
  | succ candidates ih =>
    unfold search at h
    cases hfree : free candidate with
    | true =>
      simp only [hfree, if_true, Option.some.injEq, Prod.mk.injEq] at h
      exact h.1 ▸ hfree
    | false =>
      simp only [hfree] at h
      exact ih h

theorem candidates_nodup (candidate : UInt16) : ((range maxPending).map fun k => candidate + ofNat k).Nodup := by
  apply List.Nodup.map_on
  · intro k hk l hl h
    have hnat := congrArg toNat h
    simp only [mem_range, maxPending] at hk hl
    simp only [UInt16.toNat_add, UInt16.toNat_ofNat'] at hnat
    omega
  · exact nodup_range

theorem mem_of_not_free {id : UInt16} (h : p.free closed id = false) : id ∈ p.byId.keys := by
  unfold free at h
  rcases hlook : p.byId.lookup id with _ | held
  · simp [hlook] at h
  rw [← AList.mem_keys, ← AList.lookup_isSome, hlook]
  rfl

theorem search_ne_none (hroom : p.byId.size < maxPending) : search (p.free closed) 65536 p.next ≠ none := by
  intro h
  have hsub : (range maxPending).map (fun k => p.next + ofNat k) ⊆ p.byId.keys := by
    intro id hid
    obtain ⟨k, hk, rfl⟩ := mem_map.mp hid
    apply mem_of_not_free
    apply search_none h
    exact lt_of_lt_of_le (mem_range.mp hk) (by decide)
  have hle := ((candidates_nodup p.next).subperm hsub).length_le
  have hsize : p.byId.keys.length = p.byId.size := by simp [AList.keys, keys, size]
  simp only [length_map, length_range] at hle
  omega

/-! ### What each operation does to the table -/

/-- `q` is `p` without some of the waiters whose callers stopped waiting. -/
structure Swept (closed : ℕ → Bool) (p q : Pending) : Prop where
  old : ∀ id waiter, q.byId.lookup id = some waiter → p.byId.lookup id = some waiter
  kept : ∀ id waiter, p.byId.lookup id = some waiter → closed waiter.reply = false →
    q.byId.lookup id = some waiter

theorem lookup_sweep (id : UInt16) : (p.sweep closed).byId.lookup id = some waiter ↔
      p.byId.lookup id = some waiter ∧ closed waiter.reply = false := by
  simp only [sweep, lookup_retain, Option.bind_eq_some_iff]
  constructor
  · rintro ⟨held, hheld, h⟩
    split_ifs at h with hcl
    cases h
    exact ⟨hheld, by simpa using hcl⟩
  · rintro ⟨hheld, hopen⟩
    exact ⟨waiter, hheld, by simp [hopen]⟩

theorem swept_sweep : Swept closed p (p.sweep closed) where
  old _ _ h := ((lookup_sweep _).mp h).1
  kept _ _ h hopen := (lookup_sweep _).mpr ⟨h, hopen⟩

theorem swept_makeRoom : Swept closed p (p.makeRoom closed) := by
  unfold makeRoom
  split_ifs
  · exact swept_sweep
  · exact ⟨fun _ _ h => h, fun _ _ h _ => h⟩

theorem admitWaiter_cases (closed : ℕ → Bool) (p : Pending) (waiter : Waiter) :
    (p.admitWaiter closed waiter = (p.makeRoom closed, none) ∧ maxPending ≤ (p.sweep closed).byId.size) ∨
      ∃ id next, p.admitWaiter closed waiter = (⟨(p.makeRoom closed).byId.insert id waiter, next⟩, some id) ∧
        (p.makeRoom closed).free closed id = true := by
  by_cases hfull : maxPending ≤ (p.makeRoom closed).byId.size
  · left
    constructor
    · simp only [admitWaiter, hfull, if_true]
    · unfold makeRoom at hfull
      split_ifs at hfull with hsize
      · exact hfull
      · exact absurd hfull hsize
  · right
    rcases hsearch : search ((p.makeRoom closed).free closed) 65536 (p.makeRoom closed).next with _ | found
    · exact absurd hsearch (search_ne_none (by omega))
    refine ⟨found.1, found.2, ?_, search_some hsearch⟩
    simp only [admitWaiter, hfull, if_false, hsearch]

theorem claim_cases (p : Pending) (reply : Bytes) : p.claim reply = (p, none) ∨
      ∃ parsed waiter, parse reply = .ok parsed ∧ parsed.isResponse = true ∧
        p.byId.lookup (ofNat parsed.id) = some waiter ∧ waiter.question = parsed.question ∧
        p.claim reply = ({ p with byId := p.byId.erase (ofNat parsed.id) }, some waiter) := by
  unfold claim
  rcases hparse : parse reply with _ | parsed
  · exact .inl rfl
  by_cases hresp : parsed.isResponse = true
  · rcases hlook : p.byId.lookup (ofNat parsed.id) with _ | waiter
    · simp [hlook]
    by_cases hques : waiter.question = parsed.question
    · right
      exact ⟨parsed, waiter, rfl, hresp, hlook, hques, by simp [hresp, hlook, hques]⟩
    · simp [hlook, hques]
  · simp [hresp]

end Pending

/-! ### The table and the callers -/

namespace World

def Waits (w : World) (i : ℕ) (id : UInt16) : Prop :=
  ∃ c, w.callers[i]? = some c ∧ c.abandoned = false ∧ c.status = .waiting id

structure Inv (w : World) : Prop where
  tied : ∀ id waiter, w.pending.byId.lookup id = some waiter →
    ∃ c, w.callers[waiter.reply]? = some c ∧ c.status = .waiting id ∧ c.question = waiter.question ∧
      c.message.take idBytes = waiter.original
  held : ∀ i id, w.Waits i id → ∃ waiter, w.pending.byId.lookup id = some waiter ∧ waiter.reply = i

variable {w : World}

theorem Waits.not_closed {id : UInt16} (h : w.Waits i id) : w.closed i = false := by
  obtain ⟨c, hc, hlive, -⟩ := h
  simp [closed, hc, hlive]

theorem inv_new (next : UInt16) : (new next).Inv where
  tied := by simp [new, Pending.new]
  held := by simp [new, Waits]

theorem Inv.swept (h : w.Inv) (hq : Pending.Swept w.closed w.pending q) : ({ w with pending := q } : World).Inv where
  tied id waiter hlook := h.tied id waiter (hq.old id waiter hlook)
  held i id hwaits := by
    obtain ⟨waiter, hlook, hi⟩ := h.held i id hwaits
    exact ⟨waiter, hq.kept id waiter hlook (hi ▸ Waits.not_closed hwaits), hi⟩

theorem getElem?_snoc (l : List α) (a : α) (i : ℕ) (b : α) :
    (l ++ [a])[i]? = some b ↔ l[i]? = some b ∨ i = l.length ∧ b = a := by
  rw [getElem?_append]
  by_cases hi : i < l.length
  · simp [hi, show i ≠ l.length by omega]
  · by_cases heq : i = l.length
    · simp [heq, eq_comm]
    · simp [hi, heq, show i - l.length ≠ 0 by omega]

theorem Inv.refuse (h : w.Inv) (hidle : ∀ id, caller.status ≠ .waiting id) :
    ({ w with callers := w.callers ++ [caller] } : World).Inv where
  tied id waiter hlook := by
    obtain ⟨c, hc, hstat⟩ := h.tied id waiter hlook
    exact ⟨c, (getElem?_snoc _ _ _ _).mpr (.inl hc), hstat⟩
  held i id := by
    rintro ⟨c, hc, hlive, hstat⟩
    obtain hc | ⟨-, rfl⟩ := (getElem?_snoc _ _ _ _).mp hc
    · exact h.held i id ⟨c, hc, hlive, hstat⟩
    · exact absurd hstat (hidle id)

theorem Inv.take (h : w.Inv) (caller : Caller) {id : UInt16}
    (hfree : w.pending.free w.closed id = true) (hstat : caller.status = .waiting id) : ({ w with
        pending := ⟨w.pending.byId.insert id ⟨caller.message.take idBytes, caller.question, w.callers.length⟩, next⟩
        callers := w.callers ++ [caller] } : World).Inv where
  tied id' waiter hlook := by
    rw [lookup_insert_eq] at hlook
    split_ifs at hlook with heq
    · cases hlook
      exact ⟨caller, (getElem?_snoc _ _ _ _).mpr (.inr ⟨rfl, rfl⟩), heq ▸ hstat, rfl, rfl⟩
    · obtain ⟨c, hc, hrest⟩ := h.tied id' waiter hlook
      exact ⟨c, (getElem?_snoc _ _ _ _).mpr (.inl hc), hrest⟩
  held i id' := by
    rintro ⟨c, hc, hlive, hwait⟩
    simp only [lookup_insert_eq]
    obtain hc | ⟨rfl, rfl⟩ := (getElem?_snoc _ _ _ _).mp hc
    · have hwaits : w.Waits i id' := ⟨c, hc, hlive, hwait⟩
      obtain ⟨waiter, hlook, hi⟩ := h.held i id' hwaits
      -- a caller that waits still does not lend its id
      have hne : id' ≠ id := by
        rintro rfl
        rw [Pending.free, hlook] at hfree
        simp [hi, hwaits.not_closed] at hfree
      exact ⟨waiter, by rw [if_neg hne, hlook], hi⟩
    · obtain rfl : id = id' := by simpa [hstat] using hwait
      exact ⟨_, if_pos rfl, rfl⟩

theorem inv_finish (w : World) : w.finish.Inv where
  tied := by simp [finish, Pending.new]
  held i id := by
    rintro ⟨c, hc, -, hstat⟩
    simp only [finish, getElem?_map, Option.map_eq_some_iff] at hc
    obtain ⟨c, -, rfl⟩ := hc
    exact absurd hstat (c.fail_not_waiting id)

theorem request_cases (w : World) (msg : Bytes) (gone sent : Bool) : w.request msg gone sent = w ∨
    ∃ q, (w.request msg gone sent = { w with
            pending := w.pending.makeRoom w.closed
            callers := w.callers ++ [⟨msg, q, gone, .refused⟩] } ∧
        maxPending ≤ (w.pending.sweep w.closed).byId.size) ∨
      ∃ id next w',
        w' = { w with
          pending := ⟨(w.pending.makeRoom w.closed).byId.insert id
            ⟨msg.take idBytes, q, w.callers.length⟩, next⟩
          callers := w.callers ++ [⟨msg, q, gone, .waiting id⟩] } ∧
        (w.pending.makeRoom w.closed).free w.closed id = true ∧
        w.request msg gone sent = if sent then w' else w'.finish := by
  unfold request
  rcases parse msg with _ | parsed
  · exact .inl rfl
  right
  refine ⟨parsed.question, ?_⟩
  obtain ⟨hno, hfull⟩ | ⟨id, next, hyes, hfree⟩ := Pending.admitWaiter_cases w.closed w.pending
    ⟨msg.take idBytes, parsed.question, w.callers.length⟩
  · exact .inl ⟨by simp only [hno], hfull⟩
  · exact .inr ⟨id, next, _, rfl, hfree, by simp only [hyes]⟩

theorem inv_request (h : w.Inv) (msg : Bytes) (gone sent : Bool) : (w.request msg gone sent).Inv := by
  obtain heq | ⟨q, ⟨heq, -⟩ | ⟨id, next, w', hw', hfree, heq⟩⟩ := request_cases w msg gone sent
  · rwa [heq]
  · rw [heq]
    exact (h.swept Pending.swept_makeRoom).refuse (by simp)
  rw [heq]
  cases sent with
  | true =>
    subst hw'
    exact (h.swept Pending.swept_makeRoom).take ⟨msg, q, gone, .waiting id⟩ hfree rfl
  | false => exact inv_finish w'

theorem answer_cases (h : w.Inv) (reply : Bytes) : w.answer reply = w ∨
    ∃ parsed i c, parse reply = .ok parsed ∧ parsed.isResponse = true ∧
      w.callers[i]? = some c ∧ c.status = .waiting (ofNat parsed.id) ∧ c.question = parsed.question ∧
      (∀ j, w.Waits j (ofNat parsed.id) → j = i) ∧ w.answer reply = { w with
          pending := { w.pending with byId := w.pending.byId.erase (ofNat parsed.id) }
          callers := w.callers.modify i (Caller.receive (c.message.take idBytes ++ reply.drop idBytes)) } := by
  unfold answer
  obtain hno | ⟨parsed, waiter, hparse, hresp, hlook, hques, hyes⟩ := w.pending.claim_cases reply
  · left
    simp only [hno]
  right
  obtain ⟨c, hc, hstat, hasked, horiginal⟩ := h.tied _ waiter hlook
  refine ⟨parsed, waiter.reply, c, hparse, hresp, hc, hstat, hasked.trans hques, ?_, ?_⟩
  · intro j hj
    obtain ⟨waiter', hlook', hreply⟩ := h.held j _ hj
    rw [hlook] at hlook'
    cases hlook'
    exact hreply.symm
  · simp only [hyes, horiginal]

theorem inv_answer (h : w.Inv) (reply : Bytes) : (w.answer reply).Inv := by
  obtain heq | ⟨parsed, i, c, -, -, hc, hstat, -, honly, heq⟩ := answer_cases h reply
  · rwa [heq]
  rw [heq]
  constructor
  · intro id waiter hlook
    rw [lookup_erase_eq] at hlook
    split_ifs at hlook with hid
    obtain ⟨d, hd, hrest⟩ := h.tied id waiter hlook
    refine ⟨d, ?_, hrest⟩
    have hne : i ≠ waiter.reply := by
      intro hi
      rw [← hi, hc] at hd
      cases hd
      rw [hstat] at hrest
      exact hid (by simpa using hrest.1.symm)
    simp [hne, hd]
  · rintro j id ⟨d, hd, hlive, hwait⟩
    simp only [getElem?_modify, Option.map_eq_map, Option.map_eq_some_iff] at hd
    obtain ⟨e, he, rfl⟩ := hd
    by_cases hi : i = j
    · unfold Caller.receive at hlive hwait
      split_ifs at hlive hwait with haband
      simp [haband] at hlive
    rw [if_neg hi] at hlive hwait
    have hwaits : w.Waits j id := ⟨e, he, hlive, hwait⟩
    obtain ⟨waiter, hlook, hreply⟩ := h.held j id hwaits
    have hne : id ≠ ofNat parsed.id := by
      rintro rfl
      exact hi (honly j hwaits).symm
    exact ⟨waiter, by rw [lookup_erase_eq, if_neg hne, hlook], hreply⟩

theorem inv_abandon (h : w.Inv) (caller : ℕ) :
    ({ w with callers := w.callers.modify caller fun c => { c with abandoned := true } } : World).Inv := by
  constructor
  · intro id waiter hlook
    obtain ⟨c, hc, hrest⟩ := h.tied id waiter hlook
    by_cases hi : caller = waiter.reply
    · exact ⟨{ c with abandoned := true }, by simp [hi, hc], hrest⟩
    · exact ⟨c, by simp [hi, hc], hrest⟩
  · rintro j id ⟨d, hd, hlive, hwait⟩
    simp only [getElem?_modify, Option.map_eq_map, Option.map_eq_some_iff] at hd
    obtain ⟨e, he, rfl⟩ := hd
    by_cases hi : caller = j
    · simp [hi] at hlive
    · rw [if_neg hi] at hlive hwait
      exact h.held j id ⟨e, he, hlive, hwait⟩

theorem inv_step (h : w.Inv) (e : Event) : (w.step e).Inv := by
  have halive : ∀ {w' : World}, w'.Inv → (if w.alive then w' else w).Inv := by
    intro w' h'
    split_ifs
    · exact h'
    · exact h
  cases e with
  | abandon caller => exact inv_abandon h caller
  | request msg gone sent => exact halive (inv_request h msg gone sent)
  | reply bytes => exact halive (inv_answer h bytes)
  | sweep => exact halive (h.swept Pending.swept_sweep)
  | ends => exact halive (inv_finish w)

theorem inv_run (next : UInt16) (es : List Event) : (run step (new next) es).Inv :=
  run_kept (I := Inv) (fun _ e h => inv_step h e) es (new next) (inv_new next)

/-! ### Who waits, and who is refused -/

def live (w : World) (i : ℕ) : Bool := (w.callers[i]?).any fun c => !c.abandoned && c.status.isWaiting

def liveWaiters (w : World) : List ℕ := (range w.callers.length).filter w.live

def statusAt (w : World) (i : ℕ) : Option Status := (w.callers[i]?).map (·.status)

theorem Inv.mem_entries (h : w.Inv) (hentry : entry ∈ (w.pending.sweep w.closed).byId.entries) :
    w.closed entry.2.reply = false ∧ w.statusAt entry.2.reply = some (.waiting entry.1) := by
  have hlook := AList.mem_lookup_iff.mpr hentry
  obtain ⟨hlook, hopen⟩ := (Pending.lookup_sweep _).mp hlook
  obtain ⟨c, hc, hstat, -⟩ := h.tied _ _ hlook
  exact ⟨hopen, by simp [statusAt, hc, hstat]⟩

theorem Inv.size_sweep_le (h : w.Inv) : (w.pending.sweep w.closed).byId.size ≤ w.liveWaiters.length := by
  have hnodup : ((w.pending.sweep w.closed).byId.entries.map (·.2.reply)).Nodup := by
    apply List.Nodup.map_on
    · intro a ha b hb hreply
      have hida := (h.mem_entries ha).2
      rw [hreply, (h.mem_entries hb).2] at hida
      have hkey : b.1 = a.1 := by simpa using hida
      have hla := AList.mem_lookup_iff.mpr ha
      have hlb := AList.mem_lookup_iff.mpr hb
      obtain ⟨kb, vb⟩ := b
      cases hkey
      rw [hla] at hlb
      cases hlb
      rfl
    · exact (w.pending.sweep w.closed).byId.nodupKeys.nodup
  have hsub : (w.pending.sweep w.closed).byId.entries.map (·.2.reply) ⊆ w.liveWaiters := by
    intro i hi
    obtain ⟨entry, hentry, rfl⟩ := List.mem_map.mp hi
    obtain ⟨hopen, hstat⟩ := h.mem_entries hentry
    obtain ⟨c, hc, hstat⟩ := Option.map_eq_some_iff.mp hstat
    have hlt := (List.getElem?_eq_some_iff.mp hc).1
    have hlive : c.abandoned = false := by simpa [closed, hc] using hopen
    have hwaits : w.live entry.2.reply = true := by simp only [live, hc, Option.any_some, hlive, hstat]; rfl
    exact mem_filter.mpr ⟨mem_range.mpr hlt, hwaits⟩
  simpa [size] using (hnodup.subperm hsub).length_le

/-! ### What the demultiplexer promises -/

def Distinct (w : World) : Prop := ∀ i j id, w.Waits i id → w.Waits j id → i = j

/-- `given` is `reply` for caller `i`: it waits still under the reply's wire id, it asked the reply's question, and it
gets its own id back. -/
def Answers (w : World) (reply : Bytes) (i : ℕ) (given : Bytes) : Prop :=
  ∃ parsed c, parse reply = .ok parsed ∧ parsed.isResponse = true ∧ w.callers[i]? = some c ∧
    c.abandoned = false ∧ c.status = .waiting (ofNat parsed.id) ∧ c.question = parsed.question ∧
    given = c.message.take idBytes ++ reply.drop idBytes

structure Keeps (w : World) (e : Event) : Prop where
  /-- An answer a caller did not have is that of a reply which concerns no other caller. -/
  delivered : ∀ i given, (w.step e).statusAt i = some (.answered given) →
    w.statusAt i = some (.answered given) ∨
      ∃ reply, e = .reply reply ∧ w.Answers reply i given ∧ ∀ j ≠ i, (w.step e).callers[j]? = w.callers[j]?
  /-- An answered caller gets no second answer. -/
  once : ∀ i given, w.statusAt i = some (.answered given) → (w.step e).statusAt i = some (.answered given)
  /-- A refusal means that the connection is full of callers that wait still. -/
  refused : ∀ i, (w.step e).statusAt i = some .refused →
    w.statusAt i = some .refused ∨ maxPending ≤ w.liveWaiters.length

theorem Inv.distinct (h : w.Inv) : w.Distinct := by
  intro i j id hi hj
  obtain ⟨waiter, hlook, rfl⟩ := h.held i id hi
  obtain ⟨waiter', hlook', rfl⟩ := h.held j id hj
  rw [hlook] at hlook'
  cases hlook'
  rfl

theorem Keeps.of_settled (h : ∀ i status, (∀ id, status ≠ .waiting id) → status ≠ .failed →
      ((w.step e).statusAt i = some status ↔ w.statusAt i = some status)) : w.Keeps e where
  delivered i given hgiven := .inl ((h i _ (by simp) (by simp)).mp hgiven)
  once i given hgiven := (h i _ (by simp) (by simp)).mpr hgiven
  refused i href := .inl ((h i _ (by simp) (by simp)).mp href)

theorem statusAt_finish (w : World) (i : ℕ) (hidle : ∀ id, status ≠ .waiting id)
    (hok : status ≠ .failed) : w.finish.statusAt i = some status ↔ w.statusAt i = some status := by
  simp only [statusAt, finish, getElem?_map, Option.map_map, Option.map_eq_some_iff, Function.comp]
  constructor
  · rintro ⟨c, hc, hstat⟩
    unfold Caller.fail at hstat
    cases hold : c.status <;> simp_all
  · rintro ⟨c, hc, hstat⟩
    refine ⟨c, hc, ?_⟩
    have hnot : ∀ id, c.status ≠ .waiting id := by simpa [hstat] using hidle
    unfold Caller.fail
    cases hold : c.status with
    | waiting id => exact absurd hold (hnot id)
    | answered reply | refused | failed => exact hstat

theorem statusAt_push (pending : Pending) :
    ({ w with pending := pending, callers := w.callers ++ [caller] } : World).statusAt i = some status ↔
      w.statusAt i = some status ∨ i = w.callers.length ∧ caller.status = status := by
  simp only [statusAt, Option.map_eq_some_iff, getElem?_snoc]
  constructor
  · rintro ⟨c, hc | ⟨rfl, rfl⟩, hstat⟩
    · exact .inl ⟨c, hc, hstat⟩
    · exact .inr ⟨rfl, hstat⟩
  · rintro (⟨c, hc, hstat⟩ | ⟨rfl, hstat⟩)
    · exact ⟨c, .inl hc, hstat⟩
    · exact ⟨caller, .inr ⟨rfl, rfl⟩, hstat⟩

theorem keeps_request (h : w.Inv) (halive : w.alive = true) : w.Keeps (.request message gone sent) := by
  have hstep : w.step (.request message gone sent) = w.request message gone sent := by simp [step, halive]
  obtain heq | ⟨q, ⟨heq, hfull⟩ | ⟨id, next, w', hw', -, heq⟩⟩ := request_cases w message gone sent
  · apply Keeps.of_settled
    intro i status _ _
    rw [hstep, heq]
  · constructor
    · intro i given hgiven
      rw [hstep, heq, statusAt_push] at hgiven
      simpa using hgiven
    · intro i given hgiven
      rw [hstep, heq, statusAt_push]
      exact .inl hgiven
    · intro i _
      exact .inr (hfull.trans h.size_sweep_le)
  · apply Keeps.of_settled
    intro i status hidle hok
    have hpush : w'.statusAt i = some status ↔ w.statusAt i = some status := by
      rw [hw', statusAt_push]
      simp [Ne.symm (hidle id)]
    rw [hstep, heq, ← hpush]
    cases sent with
    | true => rfl
    | false => exact statusAt_finish w' i hidle hok

theorem keeps_reply (h : w.Inv) (halive : w.alive = true) : w.Keeps (.reply reply) := by
  have hstep : w.step (.reply reply) = w.answer reply := by simp [step, halive]
  obtain heq | ⟨parsed, i, c, hparse, hresp, hc, hstat, hques, -, heq⟩ := answer_cases h reply
  · apply Keeps.of_settled
    intro i status _ _
    rw [hstep, heq]
  have hother : ∀ j ≠ i, (w.step (.reply reply)).callers[j]? = w.callers[j]? := by
    intro j hj
    rw [hstep, heq]
    simp [hj.symm]
  have hsame : ∀ j ≠ i, (w.step (.reply reply)).statusAt j = w.statusAt j := by
    intro j hj
    rw [statusAt, hother j hj, statusAt]
  have hown : (w.step (.reply reply)).statusAt i =
      some (Caller.receive (c.message.take idBytes ++ reply.drop idBytes) c).status := by
    rw [hstep, heq]
    simp [statusAt, hc]
  have hpre : w.statusAt i = some (.waiting (ofNat parsed.id)) := by simp [statusAt, hc, hstat]
  constructor
  · intro j given hgiven
    by_cases hj : j = i
    · subst hj
      rw [hown] at hgiven
      unfold Caller.receive at hgiven
      split_ifs at hgiven with haband
      · simp [hstat] at hgiven
      · right
        refine ⟨reply, rfl, ⟨parsed, c, hparse, hresp, hc, by simpa using haband, hstat, hques, ?_⟩,
          hother⟩
        simpa [eq_comm] using hgiven
    · left
      rwa [hsame j hj] at hgiven
  · intro j given hgiven
    have hj : j ≠ i := by
      rintro rfl
      simp [hpre] at hgiven
    rwa [hsame j hj]
  · intro j href
    left
    by_cases hj : j = i
    · subst hj
      rw [hown] at href
      unfold Caller.receive at href
      split_ifs at href <;> simp [hstat] at href
    · rwa [hsame j hj] at href

theorem Keeps.of_same (h : ∀ i, (w.step e).statusAt i = w.statusAt i) : w.Keeps e :=
  Keeps.of_settled fun i status _ _ => by rw [h i]

theorem keeps_step (h : w.Inv) (e : Event) : w.Keeps e := by
  cases e with
  | abandon caller =>
    apply Keeps.of_same
    intro i
    simp only [statusAt, step, getElem?_modify]
    cases w.callers[i]? with
    | none => rfl
    | some c => by_cases hi : caller = i <;> simp [hi]
  | request msg gone sent =>
    cases halive : w.alive with
    | true => exact keeps_request h halive
    | false => exact Keeps.of_same (by simp [step, halive])
  | reply bytes =>
    cases halive : w.alive with
    | true => exact keeps_reply h halive
    | false => exact Keeps.of_same (by simp [step, halive])
  | sweep =>
    apply Keeps.of_same
    intro i
    simp only [step]
    split_ifs <;> rfl
  | ends =>
    cases halive : w.alive with
    | true =>
      apply Keeps.of_settled
      intro i status hidle hok
      simp only [step, halive]
      exact statusAt_finish w i hidle hok
    | false => exact Keeps.of_same (by simp [step, halive])

/-- **Replies find their callers**: after every interleaving of requests, replies, abandoned callers and sweeps, the
callers that wait still wait under ids of their own, and every further step keeps what the demultiplexer promises. -/
theorem demultiplexed_run (next : UInt16) (es : List Event) :
    (run step (new next) es).Distinct ∧ ∀ e, (run step (new next) es).Keeps e :=
  ⟨(inv_run next es).distinct, keeps_step (inv_run next es)⟩

end World

end Boreas.Demux
