import Boreas.SharedH2

/-! # The protocol of a DoH connection

A DoH upstream (policy/upstream.rs) offers h2 and http/1.1 on every connection.  Once its first dial has found
HTTP/1.1, `over_h1` takes a parked stream or dials one of its own, and does not look at what that one
negotiated.  `spokenAsNegotiated_run` is for runs in which these dials do not select h2. -/

namespace Boreas.Doh

open H2 List Runs Function

inductive Alpn
  | h2
  | http11
  | none
deriving DecidableEq, Repr

inductive Protocol
  | h2
  | http11
deriving DecidableEq, Repr

inductive OverH1
  | begun
  | dialing
  | exchanging (stream : ℕ) (reused : Bool)
  | ended
deriving DecidableEq, Repr

def dohIdleConnections : ℕ := 4

/-- The upstream: its shared cell and queries, what each TLS connection negotiated, the parked streams (the last one
first) and the queries over HTTP/1.1.  `spoken` are the protocols that were spoken so far, with their connections. -/
structure DohUpstream where
  world : World
  alpn : ℕ → Alpn
  next : ℕ
  idle : List ℕ
  overH1 : ℕ → OverH1
  spoken : List (ℕ × Protocol)

inductive DohEvent
  -- A step of the queries, the cell or the HTTP/2 connections.
  | shared (e : H2.Event)
  -- The dial of an attempt of the cell, and whether HTTP/2 could be set up on it.
  | dialed (attempt : ℕ) (alpn : Alpn) (handshake : Bool)
  | takes (query : ℕ)
  -- The dial of a query in `over_h1`.
  | opened (query : ℕ) (alpn : Alpn)
  | unopened (query : ℕ)
  -- The exchange of a query: whether its stream is reusable, or nothing if it failed.
  | exchanged (query : ℕ) (outcome : Option Bool)

namespace DohUpstream

def init : DohUpstream := ⟨World.init .query, fun _ => .none, 0, [], fun _ => .begun, []⟩

variable (u : DohUpstream)

def connects (alpn : Alpn) : DohUpstream :=
  { u with alpn := Function.update u.alpn u.next alpn, next := u.next + 1 }

def speaks (stream : ℕ) (protocol : Protocol) : DohUpstream :=
  { u with spoken := u.spoken ++ [(stream, protocol)] }

def park (stream : ℕ) : DohUpstream :=
  if u.idle.length < dohIdleConnections then { u with idle := stream :: u.idle } else u

def sets (k : ℕ) (phase : OverH1) : DohUpstream :=
  { u with overH1 := Function.update u.overH1 k phase }

def dialed (a : ℕ) (alpn : Alpn) (handshake : Bool) : DohUpstream :=
  match u.world.live.attempts a with
  | .running =>
    let stream := u.next
    let u := u.connects alpn
    if alpn = .h2 then
      let u := u.speaks stream .h2
      { u with world := H2.step u.world (if handshake then .connect a else .refuse a .other) }
    else
      let u := u.park stream
      { u with world := H2.step u.world (.connectH1 a) }
  | _ => u

def takes (k : ℕ) : DohUpstream :=
  if (u.world.callers k).phase = .overH1 ∧ u.overH1 k = .begun then
    match u.idle with
    | stream :: idle => { u with idle := idle }.sets k (.exchanging stream true)
    | [] => u.sets k .dialing
  else u

def opened (k : ℕ) (alpn : Alpn) : DohUpstream :=
  if u.overH1 k = .dialing then (u.connects alpn).sets k (.exchanging u.next false) else u

def unopened (k : ℕ) : DohUpstream := if u.overH1 k = .dialing then u.sets k .ended else u

/-- One request on one connection: a kept one that fails is replaced once. -/
def exchanged (k : ℕ) (outcome : Option Bool) : DohUpstream :=
  match u.overH1 k with
  | .exchanging stream reused =>
    let u := u.speaks stream .http11
    match outcome with
    | some reusable =>
      let u := u.sets k .ended
      if reusable then u.park stream else u
    | none => u.sets k (if reused then .dialing else .ended)
  | _ => u

def isDial : H2.Event → Bool
  | .connect _ => true
  | .connectH1 _ => true
  | _ => false

def step (u : DohUpstream) : DohEvent → DohUpstream
  | .shared e => if isDial e then u else { u with world := H2.step u.world e }
  | .dialed a alpn handshake => u.dialed a alpn handshake
  | .takes k => u.takes k
  | .opened k alpn => u.opened k alpn
  | .unopened k => u.unopened k
  | .exchanged k outcome => u.exchanged k outcome

end DohUpstream

/-- HTTP/2 is spoken where it was negotiated, and HTTP/1.1 elsewhere. -/
def SpokenAsNegotiated (u : DohUpstream) : Prop :=
  ∀ entry ∈ u.spoken, entry.2 = .h2 ↔ u.alpn entry.1 = .h2

/-- The dials of `over_h1` do not select h2. -/
def StaysHttp11 (_ : DohUpstream) : DohEvent → Prop
  | .opened _ alpn => alpn ≠ .h2
  | _ => True

instance (u : DohUpstream) : DecidablePred (StaysHttp11 u)
  | .opened _ alpn => inferInstanceAs (Decidable (alpn ≠ .h2))
  | .shared _ => isTrue trivial
  | .dialed _ _ _ => isTrue trivial
  | .takes _ => isTrue trivial
  | .unopened _ => isTrue trivial
  | .exchanged _ _ => isTrue trivial

/-! ### The invariant -/

structure Http11 (u : DohUpstream) (stream : ℕ) : Prop where
  lt : stream < u.next
  alpn : u.alpn stream ≠ .h2

structure Negotiated (u : DohUpstream) : Prop where
  idle : ∀ stream ∈ u.idle, Http11 u stream
  exchanging : ∀ k stream reused, u.overH1 k = .exchanging stream reused → Http11 u stream
  lt : ∀ entry ∈ u.spoken, entry.1 < u.next
  spoken : SpokenAsNegotiated u

variable {u : DohUpstream}

theorem alpn_connects (alpn : Alpn) (h : stream < u.next) : (u.connects alpn).alpn stream = u.alpn stream :=
  update_of_ne h.ne _ _

theorem Http11.connects (h : Http11 u stream) (alpn : Alpn) : Http11 (u.connects alpn) stream :=
  ⟨Nat.lt_succ_of_lt h.lt, by rw [alpn_connects alpn h.lt]; exact h.alpn⟩

theorem http11_next (halpn : alpn ≠ .h2) : Http11 (u.connects alpn) u.next :=
  ⟨Nat.lt_succ_self _, by
    change Function.update u.alpn u.next alpn u.next ≠ .h2
    rw [update_self]
    exact halpn⟩

theorem Negotiated.connects (h : Negotiated u) (alpn : Alpn) : Negotiated (u.connects alpn) where
  idle := fun stream hmem => (h.idle stream hmem).connects alpn
  exchanging := fun k stream reused hk => (h.exchanging k stream reused hk).connects alpn
  lt := fun entry hmem => Nat.lt_succ_of_lt (h.lt entry hmem)
  spoken := fun entry hmem => by
    rw [alpn_connects alpn (h.lt entry hmem)]
    exact h.spoken entry hmem

theorem Negotiated.speaks (h : Negotiated u) (hlt : stream < u.next)
    (hproto : protocol = .h2 ↔ u.alpn stream = .h2) : Negotiated (u.speaks stream protocol) where
  idle := fun stream hmem => ⟨(h.idle stream hmem).lt, (h.idle stream hmem).alpn⟩
  exchanging := fun k stream reused hk => ⟨(h.exchanging k stream reused hk).lt, (h.exchanging k stream reused hk).alpn⟩
  lt := fun entry hmem => by
    obtain hmem | hmem := mem_append.mp hmem
    · exact h.lt entry hmem
    · obtain rfl := mem_singleton.mp hmem
      exact hlt
  spoken := fun entry hmem => by
    obtain hmem | hmem := mem_append.mp hmem
    · exact h.spoken entry hmem
    · obtain rfl := mem_singleton.mp hmem
      exact hproto

theorem Negotiated.park (h : Negotiated u) (hstr : Http11 u stream) : Negotiated (u.park stream) := by
  unfold DohUpstream.park
  split_ifs
  · refine ⟨fun stream' hmem => ?_, fun k stream' reused hk => ?_, h.lt, h.spoken⟩
    · obtain rfl | hmem := mem_cons.mp hmem
      · exact ⟨hstr.lt, hstr.alpn⟩
      · exact ⟨(h.idle stream' hmem).lt, (h.idle stream' hmem).alpn⟩
    · exact ⟨(h.exchanging k stream' reused hk).lt, (h.exchanging k stream' reused hk).alpn⟩
  · exact h

theorem Negotiated.sets (h : Negotiated u) (k : ℕ) (phase : OverH1)
    (hphase : ∀ stream reused, phase = .exchanging stream reused → Http11 u stream) : Negotiated (u.sets k phase) := by
  refine ⟨fun stream hmem => ⟨(h.idle stream hmem).lt, (h.idle stream hmem).alpn⟩, fun k' stream reused hk' => ?_, h.lt,
    h.spoken⟩
  have hstr : Http11 u stream := by
    change Function.update u.overH1 k phase k' = _ at hk'
    by_cases heq : k' = k
    · rw [heq, update_self] at hk'
      exact hphase stream reused hk'
    · rw [update_of_ne heq] at hk'
      exact h.exchanging k' stream reused hk'
  exact ⟨hstr.lt, hstr.alpn⟩

theorem Negotiated.world (h : Negotiated u) (world : World) : Negotiated { u with world := world } :=
  ⟨fun stream hmem => ⟨(h.idle stream hmem).lt, (h.idle stream hmem).alpn⟩,
    fun k stream reused hk => ⟨(h.exchanging k stream reused hk).lt, (h.exchanging k stream reused hk).alpn⟩,
    h.lt, h.spoken⟩

/-! ### The steps -/

theorem Negotiated.dialed (h : Negotiated u) (a : ℕ) (alpn : Alpn) (handshake : Bool) :
    Negotiated (u.dialed a alpn handshake) := by
  unfold DohUpstream.dialed
  split
  · have hconn := h.connects alpn
    split_ifs with halpn
    all_goals refine Negotiated.world ?_ _
    · refine hconn.speaks (Nat.lt_succ_self _) ⟨fun _ => ?_, fun _ => rfl⟩
      exact (update_self ..).trans halpn
    · refine hconn.speaks (Nat.lt_succ_self _) ⟨fun _ => ?_, fun _ => rfl⟩
      exact (update_self ..).trans halpn
    · exact hconn.park (http11_next halpn)
  · exact h

theorem Negotiated.takes (h : Negotiated u) (k : ℕ) : Negotiated (u.takes k) := by
  unfold DohUpstream.takes
  split_ifs
  · split
    · rename_i stream idle hidle
      have hstr : Http11 u stream := h.idle stream (by rw [hidle]; exact mem_cons_self)
      have hrest : Negotiated { u with idle := idle } :=
        ⟨fun stream' hmem => ⟨(h.idle stream' (by rw [hidle]; exact mem_cons_of_mem _ hmem)).lt,
          (h.idle stream' (by rw [hidle]; exact mem_cons_of_mem _ hmem)).alpn⟩,
          fun k stream reused hk => ⟨(h.exchanging k stream reused hk).lt, (h.exchanging k stream reused hk).alpn⟩, h.lt,
          h.spoken⟩
      refine hrest.sets k _ fun stream' reused heq => ?_
      cases heq
      exact ⟨hstr.lt, hstr.alpn⟩
    · exact h.sets k _ nofun
  · exact h

theorem Negotiated.opened (h : Negotiated u) (k : ℕ) (halpn : alpn ≠ .h2) : Negotiated (u.opened k alpn) := by
  unfold DohUpstream.opened
  split_ifs
  · refine (h.connects alpn).sets k _ fun stream reused heq => ?_
    cases heq
    exact http11_next halpn
  · exact h

theorem Negotiated.exchanged (h : Negotiated u) (k : ℕ) (outcome : Option Bool) : Negotiated (u.exchanged k outcome) := by
  unfold DohUpstream.exchanged
  split
  · rename_i stream reused hk
    have hstr := h.exchanging k stream reused hk
    have hspoken : Negotiated (u.speaks stream .http11) :=
      h.speaks hstr.lt ⟨nofun, fun halpn => absurd halpn hstr.alpn⟩
    rcases outcome with _ | reusable
    · refine hspoken.sets k _ fun stream' reused' heq => ?_
      split_ifs at heq
    have hended := hspoken.sets k .ended nofun
    dsimp only
    split_ifs
    · exact hended.park ⟨hstr.lt, hstr.alpn⟩
    · exact hended
  · exact h

theorem Negotiated.step (h : Negotiated u) (hguard : StaysHttp11 u e) : Negotiated (u.step e) := by
  cases e with
  | shared e =>
    dsimp only [DohUpstream.step]
    split_ifs
    · exact h
    · exact h.world _
  | dialed a alpn handshake => exact h.dialed a alpn handshake
  | takes k => exact h.takes k
  | opened k alpn => exact h.opened k hguard
  | unopened k =>
    dsimp only [DohUpstream.step, DohUpstream.unopened]
    split_ifs
    · exact h.sets k _ nofun
    · exact h
  | exchanged k outcome => exact h.exchanged k outcome

theorem negotiated_init : Negotiated .init where
  idle _ hmem := absurd hmem not_mem_nil
  exchanging _ _ _ hk := by cases hk
  lt _ hmem := absurd hmem not_mem_nil
  spoken _ hmem := absurd hmem not_mem_nil

/-- **Each connection is spoken to in the protocol it negotiated** in every run in which no dial of `over_h1` selects
h2. -/
theorem spokenAsNegotiated_run (es : List DohEvent) (h : Along DohUpstream.step StaysHttp11 .init es) :
    SpokenAsNegotiated (run DohUpstream.step .init es) :=
  (run_invariant (I := Negotiated) (fun _ _ hu hguard => hu.step hguard) es _ negotiated_init h).spoken

def secondDial (alpn : Alpn) : List DohEvent :=
  [.shared .start, .dialed 0 .http11 true, .shared (.settle 0), .shared (.wake 0), .takes 0, .exchanged 0 (some false),
    .shared .start, .takes 1, .opened 1 alpn, .exchanged 1 none]

theorem spokenAsNegotiated_secondDial : SpokenAsNegotiated (run DohUpstream.step .init (secondDial .http11)) ∧
      (run DohUpstream.step .init (secondDial .http11)).spoken = [(0, .http11), (1, .http11)] :=
  ⟨spokenAsNegotiated_run _ (by decide), by decide⟩

/-- The resolver selects h2 for the second connection, and a request of HTTP/1.1 is written to it. -/
theorem http11_over_h2 : (1, .http11) ∈ (run DohUpstream.step .init (secondDial .h2)).spoken ∧
      (run DohUpstream.step .init (secondDial .h2)).alpn 1 = .h2 := by
  decide

end Boreas.Doh
