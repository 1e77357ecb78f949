import Boreas.Live
import Boreas.Runs

/-! # The shared HTTP/2 connection

The gRPC and HTTP transports and the DoH upstream each keep one HTTP/2 connection in a `Live` cell.  After a GOAWAY a
connection takes no new stream, but its flag is set only after its last stream.  Each caller remembers which
connections had stopped taking streams when it started (`stale`).  `carriedAfresh_run` says that none is handed or
refused by a stale one in any run in which every start meets `StartsFresh`. -/

namespace Boreas.H2

open Runs Function

inductive IoError
  | connectionAborted
  | other
deriving DecidableEq, Repr

/-- A connection: whether it takes new streams, its open streams, whether its future has ended, and the flag of
`H2Sender`. -/
structure Conn where
  accepting : Bool
  streams : ℕ
  finished : Bool
  ended : Bool
deriving DecidableEq, Repr

/-- What the cell holds: an `H2Sender`, or for DoH the mark of a resolver that chose HTTP/1.1. -/
inductive Shared
  | h2 (connection : ℕ)
  | h1
deriving DecidableEq, Repr

inductive Phase
  | waiting (attempt : ℕ)
  | holding (connection : ℕ)
  | sending (connection : ℕ)
  | carried (connection : ℕ)
  | overH1
  | done
  | failed (refusedBy : Option ℕ)
deriving DecidableEq, Repr

structure Caller where
  retried : Bool
  stale : List ℕ
  handed : List ℕ
  phase : Phase
deriving DecidableEq, Repr

/-- Dials of a transport fail when refused; queries try once more. -/
inductive Kind
  | dial
  | query
deriving DecidableEq, Repr

structure World where
  kind : Kind
  live : Live IoError Shared
  conns : ℕ → Conn
  nextConn : ℕ
  callers : ℕ → Caller
  nextCaller : ℕ

namespace World

def init (kind : Kind) : World :=
  ⟨kind, .new, fun _ => ⟨false, 0, true, true⟩, 0, fun _ => ⟨false, [], [], .done⟩, 0⟩

variable (w : World)

def alive : Shared → Bool
  | .h2 c => !(w.conns c).ended
  | .h1 => true

variable (k : ℕ)

def setCaller (caller : Caller) : World :=
  { w with callers := update w.callers k caller }

def setConn (c : ℕ) (conn : Conn) : World := { w with conns := update w.conns c conn }

def Caller.take (caller : Caller) : Shared → Caller
  | .h2 c => { caller with handed := c :: caller.handed, phase := .holding c }
  | .h1 => { caller with phase := .overH1 }

def getFor : World :=
  match w.live.get w.alive with
  | (live, .ready shared) => { w with live := live }.setCaller k (Caller.take (w.callers k) shared)
  | (live, .waiting a) => { w with live := live }.setCaller k { w.callers k with phase := .waiting a }

def stopped : List ℕ := (List.range w.nextConn).filter (fun c => !(w.conns c).accepting)

def start : World :=
  { w.setCaller w.nextCaller ⟨false, w.stopped, [], .done⟩ with nextCaller := w.nextCaller + 1 }.getFor w.nextCaller

def wake : World :=
  match (w.callers k).phase with
  | .waiting a =>
    match w.live.received .connectionAborted a with
    | none => w
    | some (.ok shared) => w.setCaller k (Caller.take (w.callers k) shared)
    | some (.error _) => w.setCaller k { w.callers k with phase := .failed none }
  | _ => w

def refused (k c : ℕ) (error : IoError) : World :=
  let caller := w.callers k
  match w.kind with
  | .dial => w.setCaller k { caller with phase := .failed (some c) }
  | .query =>
    if error = .connectionAborted ∧ caller.retried = false then
      (w.setCaller k { caller with retried := true }).getFor k
    else w.setCaller k { caller with phase := .failed (some c) }

def ready (error : IoError) : World :=
  match (w.callers k).phase with
  | .holding c =>
    if (w.conns c).accepting then w.setCaller k { w.callers k with phase := .sending c } else w.refused k c error
  | _ => w

def send (error : IoError) : World :=
  match (w.callers k).phase with
  | .sending c =>
    if (w.conns c).accepting then
      (w.setConn c { w.conns c with streams := (w.conns c).streams + 1 }).setCaller k
        { w.callers k with phase := .carried c }
    else w.refused k c error
  | _ => w

def closes (result : Except IoError Unit) : World :=
  match (w.callers k).phase with
  | .carried c =>
    let w := w.setConn c { w.conns c with streams := (w.conns c).streams - 1 }
    match result, w.kind with
    | .error error, .query => w.refused k c error
    | _, _ => w.setCaller k { w.callers k with phase := .done }
  | _ => w

def connect (a : ℕ) : World :=
  match w.live.attempts a with
  | .running =>
    { w.setConn w.nextConn ⟨true, 0, false, false⟩ with
      live := w.live.yields a (.ok (.h2 w.nextConn))
      nextConn := w.nextConn + 1 }
  | _ => w

end World

inductive Event
  | start
  | wake (caller : ℕ)
  | ready (caller : ℕ) (error : IoError)
  | send (caller : ℕ) (error : IoError)
  | closes (caller : ℕ) (result : Except IoError Unit)
  | connect (attempt : ℕ)
  | connectH1 (attempt : ℕ)
  | refuse (attempt : ℕ) (error : IoError)
  | settle (attempt : ℕ)
  | unwind (attempt : ℕ)
  | goaway (connection : ℕ)
  | lost (connection : ℕ)
  | ends (connection : ℕ)
  | record (connection : ℕ)

open World in
def step (w : World) : Event → World
  | .start => w.start
  | .wake k => w.wake k
  | .ready k error => w.ready k error
  | .send k error => w.send k error
  | .closes k result => w.closes k result
  | .connect a => w.connect a
  -- Only a DoH resolver can choose HTTP/1.1.
  | .connectH1 a => if w.kind = .query then { w with live := w.live.yields a (.ok .h1) } else w
  | .refuse a error => { w with live := w.live.yields a (.error error) }
  | .settle a => { w with live := w.live.settle a }
  | .unwind a => { w with live := w.live.unwind a }
  | .goaway c => w.setConn c { w.conns c with accepting := false }
  -- The transport under the connection fails, and its streams with it.
  | .lost c => w.setConn c { w.conns c with accepting := false, streams := 0, finished := true }
  -- After a GOAWAY the future ends with the last stream.
  | .ends c =>
    if (w.conns c).accepting = false ∧ (w.conns c).streams = 0 then w.setConn c { w.conns c with finished := true } else w
  | .record c => if (w.conns c).finished then w.setConn c { w.conns c with ended := true } else w

/-! ### What callers are owed -/

/-- No caller was handed, or refused by, a connection that had stopped taking streams when the caller started. -/
def CarriedAfresh (w : World) : Prop :=
  ∀ k, (∀ c ∈ (w.callers k).handed, c ∉ (w.callers k).stale) ∧
    ∀ c, (w.callers k).phase = .failed (some c) → c ∉ (w.callers k).stale

/-- A caller starts only when the shared connection, up or about to be, takes streams or is known to have ended. -/
def StartsFresh (w : World) : Event → Prop
  | .start =>
    match w.live.state with
    | .up (.h2 c) => (w.conns c).accepting = true ∨ (w.conns c).ended = true
    | .up .h1 => True
    | .opening a => ∀ c, w.live.attempts a = .yielded (.ok (.h2 c)) → (w.conns c).accepting = true
    | .down => True
  | _ => True

/-! ### The invariant -/

structure CallerOk (w : World) (caller : Caller) : Prop where
  stale_lt : ∀ c ∈ caller.stale, c < w.nextConn
  up : ∀ c ∈ caller.stale, w.live.state = .up (.h2 c) → (w.conns c).ended = true
  yielded : ∀ c ∈ caller.stale, ∀ a, w.live.attempts a ≠ .yielded (.ok (.h2 c))
  waiting : ∀ a, caller.phase = .waiting a → a < w.live.next ∧ ∀ c ∈ caller.stale, ¬ w.live.comesTo a (.h2 c)
  handed : ∀ c ∈ caller.handed, c ∉ caller.stale
  using_ : ∀ c, caller.phase = .holding c ∨ caller.phase = .sending c ∨ caller.phase = .carried c ∨
    caller.phase = .failed (some c) → c ∈ caller.handed

structure Inv (w : World) : Prop where
  live : w.live.Sound
  callers : ∀ k, CallerOk w (w.callers k)

variable {w : World}

theorem Inv.carriedAfresh (h : Inv w) : CarriedAfresh w := by
  intro k
  have hk := h.callers k
  exact ⟨hk.handed, fun c hc => hk.handed c (hk.using_ c (.inr (.inr (.inr hc))))⟩

theorem inv_init (kind : Kind) : Inv (World.init kind) :=
  ⟨Live.sound_new, fun _ => ⟨nofun, nofun, nofun, nofun, nofun, by simp [World.init]⟩⟩

variable {caller : Caller}

theorem Inv.setCaller (h : Inv w) (hc : CallerOk w caller) : Inv (w.setCaller k caller) := by
  refine ⟨h.live, fun k' => ?_⟩
  have hk' := (forall_update_iff (a := k) w.callers fun _ => CallerOk w).mpr ⟨hc, fun k _ => h.callers k⟩ k'
  exact ⟨hk'.stale_lt, hk'.up, hk'.yielded, hk'.waiting, hk'.handed, hk'.using_⟩

theorem Inv.setConn (h : Inv w) (hended : (w.conns c).ended = true → conn.ended = true) : Inv (w.setConn c conn) := by
  refine ⟨h.live, fun k => ?_⟩
  have hk := h.callers k
  refine ⟨hk.stale_lt, fun c' hc' hup => ?_, hk.yielded, hk.waiting, hk.handed, hk.using_⟩
  have hset := hk.up c' hc' hup
  unfold World.setConn
  dsimp only
  by_cases heq : c' = c
  · rw [heq] at hset ⊢
    rw [update_self]
    exact hended hset
  · rw [update_of_ne heq]
    exact hset

theorem CallerOk.setPhase (h : CallerOk w caller) (hwait : ∀ a, phase ≠ .waiting a)
    (husing : ∀ c, phase = .holding c ∨ phase = .sending c ∨ phase = .carried c ∨ phase = .failed (some c) →
      c ∈ caller.handed) : CallerOk w { caller with phase := phase } :=
  ⟨h.stale_lt, h.up, h.yielded, fun a ha => absurd ha (hwait a), h.handed, husing⟩

theorem CallerOk.take (h : CallerOk w caller)
    (hfresh : ∀ c, shared = .h2 c → c ∉ caller.stale) : CallerOk w (World.Caller.take caller shared) := by
  cases shared with
  | h1 => exact h.setPhase nofun (by simp)
  | h2 c =>
    refine ⟨h.stale_lt, h.up, h.yielded, nofun, fun c' hc' => ?_, by simp [World.Caller.take]⟩
    rcases List.mem_cons.mp hc' with rfl | hc'
    · exact hfresh _ rfl
    · exact h.handed c' hc'

theorem CallerOk.begin (h : CallerOk w caller) : CallerOk { w with live := w.live.begin.1 } caller := by
  have hother : ∀ a, a ≠ w.live.next → w.live.begin.1.attempts a = w.live.attempts a := fun a ha => by
    simp only [Live.begin, update_of_ne ha]
  have hself : w.live.begin.1.attempts w.live.next = .running := by
    simp only [Live.begin, update_self]
  refine ⟨h.stale_lt, fun c _ hup => (by cases hup), fun c hc a ha => ?_, fun a ha => ?_, h.handed, h.using_⟩
  · dsimp only at ha
    by_cases heq : a = w.live.next
    · rw [heq, hself] at ha
      cases ha
    · rw [hother a heq] at ha
      exact h.yielded c hc a ha
  · obtain ⟨hlt, hnot⟩ := h.waiting a ha
    refine ⟨Nat.lt_succ_of_lt hlt, fun c hc hcomes => hnot c hc ?_⟩
    unfold Live.comesTo at hcomes ⊢
    rwa [hother a (Nat.ne_of_lt hlt)] at hcomes

theorem getFor_cases (w : World) (k : ℕ) : (∃ shared, w.live.state = .up shared ∧ w.alive shared = true ∧
        w.getFor k = w.setCaller k (World.Caller.take (w.callers k) shared)) ∨
      (∃ a, w.live.state = .opening a ∧ w.getFor k = w.setCaller k { w.callers k with phase := .waiting a }) ∨
      ((∀ a, w.live.state ≠ .opening a) ∧ w.getFor k = ({ w with live := w.live.begin.1 } : World).setCaller k
        { w.callers k with phase := .waiting w.live.next }) := by
  unfold World.getFor Live.get
  cases hs : w.live.state with
  | down => exact .inr (.inr ⟨nofun, rfl⟩)
  | opening a => exact .inr (.inl ⟨a, rfl, rfl⟩)
  | up shared =>
    dsimp only
    by_cases halive : w.alive shared = true
    · rw [if_pos halive]
      exact .inl ⟨shared, rfl, halive, rfl⟩
    · rw [if_neg halive]
      exact .inr (.inr ⟨nofun, rfl⟩)

/-- **The critical section of `get`** hands a caller no stale connection. -/
theorem Inv.getFor (h : Inv w) (k : ℕ) : Inv (w.getFor k) := by
  have hk := h.callers k
  obtain ⟨shared, hup, halive, heq⟩ | ⟨a, hopen, heq⟩ | ⟨hidle, heq⟩ := getFor_cases w k <;> rw [heq]
  · refine h.setCaller (hk.take fun c hshared hstale => ?_)
    subst hshared
    have hended := hk.up c hstale hup
    simp [World.alive, hended] at halive
  · refine h.setCaller ⟨hk.stale_lt, hk.up, hk.yielded, fun a' ha' => ?_, hk.handed, by simp⟩
    cases ha'
    refine ⟨h.live.lt_next a hopen, fun c hc hcomes => ?_⟩
    rcases hcomes with hcomes | hcomes
    · exact hk.yielded c hc a hcomes
    · exact h.live.unsettled a _ hopen hcomes
  · have hw : Inv { w with live := w.live.begin.1 } := ⟨h.live.begin hidle, fun k' => (h.callers k').begin⟩
    have hb := hk.begin
    refine hw.setCaller ⟨hb.stale_lt, hb.up, hb.yielded, fun a ha => ?_, hb.handed, by simp⟩
    cases ha
    refine ⟨Nat.lt_succ_self _, fun c _ hcomes => ?_⟩
    simp [Live.comesTo, Live.begin] at hcomes

theorem Inv.refused (h : Inv w) (hc : c ∈ (w.callers k).handed) (error : IoError) : Inv (w.refused k c error) := by
  have hk := h.callers k
  have hfail : CallerOk w { w.callers k with phase := .failed (some c) } :=
    hk.setPhase nofun (by simp [hc])
  unfold World.refused
  dsimp only
  cases w.kind with
  | dial => exact h.setCaller hfail
  | query =>
    split_ifs with hretry
    · refine Inv.getFor (h.setCaller ?_) k
      exact { hk with }
    · exact h.setCaller hfail

/-- **A start in a fresh cell** leaves none of the stopped connections to be handed out. -/
theorem Inv.start (h : Inv w) (hfresh : StartsFresh w .start) : Inv w.start := by
  have hstop : ∀ c ∈ w.stopped, c < w.nextConn ∧ (w.conns c).accepting = false := by
    simp [World.stopped]
  refine Inv.getFor ?_ _
  have hnew : CallerOk w ⟨false, w.stopped, [], .done⟩ := by
    refine ⟨fun c hc => (hstop c hc).1, fun c hc hup => ?_, fun c hc a ha => ?_, nofun, nofun, by simp⟩
    · unfold StartsFresh at hfresh
      rw [hup] at hfresh
      rcases hfresh with hacc | hended
      · rw [(hstop c hc).2] at hacc
        cases hacc
      · exact hended
    · unfold StartsFresh at hfresh
      rw [h.live.yielded a _ ha] at hfresh
      have hacc := hfresh c ha
      rw [(hstop c hc).2] at hacc
      cases hacc
  have hset := h.setCaller (k := w.nextCaller) hnew
  exact ⟨hset.live, fun k => ⟨(hset.callers k).stale_lt, (hset.callers k).up, (hset.callers k).yielded,
    (hset.callers k).waiting, (hset.callers k).handed, (hset.callers k).using_⟩⟩

/-! ### The other steps -/

theorem Inv.wake (h : Inv w) (k : ℕ) : Inv (w.wake k) := by
  have hk := h.callers k
  unfold World.wake
  cases hphase : (w.callers k).phase with
  | waiting a =>
    have hwait := (hk.waiting a hphase).2
    have hfail : CallerOk w { w.callers k with phase := .failed none } :=
      hk.setPhase nofun (by simp)
    dsimp only [Live.received]
    cases ha : w.live.attempts a with
    | running | yielded outcome => exact h
    | unwound => exact h.setCaller hfail
    | settled outcome =>
      rcases outcome with _ | shared
      · exact h.setCaller hfail
      refine h.setCaller (hk.take fun c hshared hstale => hwait c hstale ?_)
      subst hshared
      exact .inr ha
  | _ => exact h

theorem Inv.ready (h : Inv w) (k : ℕ) (error : IoError) : Inv (w.ready k error) := by
  have hk := h.callers k
  unfold World.ready
  cases hphase : (w.callers k).phase with
  | holding c =>
    have hc := hk.using_ c (.inl hphase)
    dsimp only
    split_ifs
    · exact h.setCaller (hk.setPhase nofun (by simp [hc]))
    · exact h.refused hc error
  | _ => exact h

theorem Inv.send (h : Inv w) (k : ℕ) (error : IoError) : Inv (w.send k error) := by
  have hk := h.callers k
  unfold World.send
  cases hphase : (w.callers k).phase with
  | sending c =>
    have hc := hk.using_ c (.inr (.inl hphase))
    dsimp only
    split_ifs
    · have hset : Inv (w.setConn c { w.conns c with streams := (w.conns c).streams + 1 }) := h.setConn id
      exact hset.setCaller ((hset.callers k).setPhase nofun (by simp [World.setConn, hc]))
    · exact h.refused hc error
  | _ => exact h

theorem Inv.closes (h : Inv w) (k : ℕ) (res : Except IoError Unit) : Inv (w.closes k res) := by
  have hk := h.callers k
  unfold World.closes
  cases hphase : (w.callers k).phase with
  | carried c =>
    have hc := hk.using_ c (.inr (.inr (.inl hphase)))
    have hset : Inv (w.setConn c { w.conns c with streams := (w.conns c).streams - 1 }) := h.setConn id
    have hdone : CallerOk _ { w.callers k with phase := .done } := (hset.callers k).setPhase nofun (by simp)
    dsimp only
    split
    · exact hset.refused hc _
    · exact hset.setCaller hdone
  | _ => exact h

theorem CallerOk.yields (h : CallerOk w caller) (a : ℕ) (hfresh : ∀ c ∈ caller.stale, outcome ≠ .ok (.h2 c)) :
    CallerOk { w with live := w.live.yields a outcome } caller := by
  unfold Live.yields
  cases ha : w.live.attempts a with
  | running =>
    have hnew : ∀ a' c, c ∈ caller.stale →
        update w.live.attempts a (.yielded outcome) a' = .yielded (.ok (.h2 c)) →
        w.live.attempts a' = .yielded (.ok (.h2 c)) := by
      intro a' c hc h'
      by_cases heq : a' = a
      · rw [heq, update_self] at h'
        cases h'
        exact absurd rfl (hfresh c hc)
      · rwa [update_of_ne heq] at h'
    refine ⟨h.stale_lt, h.up, fun c hc a' ha' => h.yielded c hc a' (hnew a' c hc ha'), fun a' ha' => ?_, h.handed,
      h.using_⟩
    obtain ⟨hlt, hnot⟩ := h.waiting a' ha'
    refine ⟨hlt, fun c hc hcomes => hnot c hc ?_⟩
    rcases hcomes with hcomes | hcomes
    · exact .inl (hnew a' c hc hcomes)
    dsimp only at hcomes
    by_cases heq : a' = a
    · rw [heq, update_self] at hcomes
      cases hcomes
    · rw [update_of_ne heq] at hcomes
      exact .inr hcomes
  | _ => exact h

theorem Inv.yields (h : Inv w) (a : ℕ)
    (hfresh : ∀ c, outcome ≠ .ok (.h2 c)) : Inv { w with live := w.live.yields a outcome } :=
  ⟨h.live.yields a outcome, fun k => (h.callers k).yields a fun c _ => hfresh c⟩

theorem Inv.connect (h : Inv w) (a : ℕ) : Inv (w.connect a) := by
  unfold World.connect
  cases ha : w.live.attempts a with
  | running =>
    refine ⟨h.live.yields a _, fun k => ?_⟩
    have hk : CallerOk { w with live := w.live.yields a (.ok (.h2 w.nextConn)) } (w.callers k) :=
      (h.callers k).yields a (fun c hc heq => by
        cases heq
        exact Nat.lt_irrefl _ ((h.callers k).stale_lt _ hc))
    refine ⟨fun c hc => Nat.lt_succ_of_lt (hk.stale_lt c hc), fun c hc hup => ?_, hk.yielded, hk.waiting, hk.handed,
      hk.using_⟩
    have hne : c ≠ w.nextConn := Nat.ne_of_lt (hk.stale_lt c hc)
    have hended := hk.up c hc hup
    dsimp only [World.setConn] at hended ⊢
    rw [update_of_ne hne]
    exact hended
  | _ => exact h

theorem CallerOk.ends (h : CallerOk w caller) (a : ℕ) (done : Attempt IoError Shared)
    (hyld : ∀ outcome, done ≠ .yielded outcome)
    (hset : ∀ outcome, done = .settled outcome → w.live.attempts a = .yielded outcome)
    (hstate : state = w.live.state ∨ ∀ c, state = .up (.h2 c) → done = .settled (.ok (.h2 c))) :
    CallerOk { w with live := { w.live with state := state, attempts := update w.live.attempts a done } }
      caller := by
  have hold : ∀ a' c, update w.live.attempts a done a' = .yielded (.ok (.h2 c)) →
      w.live.attempts a' = .yielded (.ok (.h2 c)) := by
    intro a' c h'
    by_cases heq : a' = a
    · rw [heq, update_self] at h'
      exact absurd h' (hyld _)
    · rwa [update_of_ne heq] at h'
  refine ⟨h.stale_lt, fun c hc hup => ?_, fun c hc a' ha' => h.yielded c hc a' (hold a' c ha'), fun a' ha' => ?_,
    h.handed, h.using_⟩
  · rcases hstate with hstate | hstate
    · exact h.up c hc (by rw [← hstate]; exact hup)
    · exact absurd (hset _ (hstate c hup)) (h.yielded c hc a)
  · obtain ⟨hlt, hnot⟩ := h.waiting a' ha'
    refine ⟨hlt, fun c hc hcomes => ?_⟩
    rcases hcomes with hcomes | hcomes
    · exact h.yielded c hc a' (hold a' c hcomes)
    dsimp only at hcomes
    by_cases heq : a' = a
    · rw [heq, update_self] at hcomes
      exact h.yielded c hc a (hset _ hcomes)
    · rw [update_of_ne heq] at hcomes
      exact hnot c hc (.inr hcomes)

theorem Inv.settle (h : Inv w) (a : ℕ) : Inv { w with live := w.live.settle a } := by
  refine ⟨h.live.settle a, fun k => ?_⟩
  have hk := h.callers k
  unfold Live.settle
  cases ha : w.live.attempts a with
  | yielded outcome =>
    cases outcome with
    | ok shared =>
      refine hk.ends a (.settled (.ok shared)) nofun (fun outcome heq => ?_) (.inr fun c hup => ?_)
      · cases heq
        exact ha
      · cases hup
        rfl
    | error e =>
      refine hk.ends a (.settled (.error e)) nofun (fun outcome heq => ?_) (.inr fun c hup => ?_)
      · cases heq
        exact ha
      · cases hup
  | _ => exact hk

theorem Inv.unwind (h : Inv w) (a : ℕ) : Inv { w with live := w.live.unwind a } := by
  refine ⟨h.live.unwind a, fun k => ?_⟩
  unfold Live.unwind
  cases ha : w.live.attempts a with
  | running => exact (h.callers k).ends a .unwound nofun nofun (.inl rfl)
  | _ => exact h.callers k

theorem inv_step (h : Inv w) (e : Event) (hfresh : StartsFresh w e) : Inv (step w e) := by
  cases e with
  | start => exact h.start hfresh
  | wake k => exact h.wake k
  | ready k error => exact h.ready k error
  | send k error => exact h.send k error
  | closes k res => exact h.closes k res
  | connect a => exact h.connect a
  | connectH1 a =>
    dsimp only [step]
    split_ifs
    · exact h.yields a nofun
    · exact h
  | refuse a error => exact h.yields a nofun
  | settle a => exact h.settle a
  | unwind a => exact h.unwind a
  | goaway c | lost c => exact h.setConn id
  | ends c =>
    dsimp only [step]
    split_ifs
    · exact h.setConn id
    · exact h
  | record c =>
    dsimp only [step]
    split_ifs
    · exact h.setConn (by intro _; rfl)
    · exact h

/-- **Callers are carried afresh** in every run whose starts find the shared connection taking streams or known to
have ended. -/
theorem carriedAfresh_run (kind : Kind) (es : List Event) (hfresh : Along step StartsFresh (World.init kind) es) :
    CarriedAfresh (run step (World.init kind) es) :=
  (run_invariant (I := Inv) (fun _ e h hg => inv_step h e hg) es _ (inv_init kind) hfresh).carriedAfresh

/-- A caller opens a connection and has a stream on it; the peer sends GOAWAY. -/
def untilGoaway : List Event :=
  [.start, .connect 0, .settle 0, .wake 0, .ready 0 .other, .send 0 .other, .goaway 0]

/-- Once the stream has closed and the end is recorded, the next caller is carried on the second connection. -/
theorem carriedAfresh_recorded :
    let es := untilGoaway ++ [.closes 0 (.ok ()), .ends 0, .record 0, .start, .connect 1, .settle 1, .wake 1,
      .ready 1 .other, .send 1 .other]
    Along step StartsFresh (World.init .dial) es ∧ CarriedAfresh (run step (World.init .dial) es) ∧
      ((run step (World.init .dial) es).callers 1).stale = [0] ∧
      ((run step (World.init .dial) es).callers 1).phase = .carried 1 := by
  intro es
  have hfresh : Along step StartsFresh (World.init .dial) es :=
    ⟨trivial, trivial, trivial, trivial, trivial, trivial, trivial, trivial, trivial, trivial, .inr rfl, trivial,
      trivial, trivial, trivial, trivial, trivial⟩
  exact ⟨hfresh, carriedAfresh_run .dial _ hfresh, rfl, rfl⟩

/-- **While the stream goes on**, the next dial is handed the connection that takes no stream, and fails; so does the
next query, after its second try on the same connection. -/
theorem refused_after_goaway :
    let dials := run step (World.init .dial) (untilGoaway ++ [.start, .ready 1 .connectionAborted])
    let queries := run step (World.init .query)
      (untilGoaway ++ [.start, .ready 1 .connectionAborted, .ready 1 .connectionAborted])
    (0 ∈ (dials.callers 1).stale ∧ (dials.callers 1).phase = .failed (some 0) ∧ ¬ CarriedAfresh dials) ∧
      0 ∈ (queries.callers 1).stale ∧ (queries.callers 1).handed = [0, 0] ∧
      (queries.callers 1).phase = .failed (some 0) ∧ ¬ CarriedAfresh queries := by
  intro dials queries
  have hdial : 0 ∈ (dials.callers 1).stale ∧ (dials.callers 1).phase = .failed (some 0) := by decide +revert
  have hquery : 0 ∈ (queries.callers 1).stale ∧ (queries.callers 1).handed = [0, 0] ∧
      (queries.callers 1).phase = .failed (some 0) := by decide +revert
  exact ⟨⟨hdial.1, hdial.2, fun h => (h 1).2 0 hdial.2 hdial.1⟩, hquery.1, hquery.2.1, hquery.2.2,
    fun h => (h 1).2 0 hquery.2.2 hquery.1⟩

end Boreas.H2
