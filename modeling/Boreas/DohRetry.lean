import Boreas.SharedH2

/-! # Queries over HTTP/2 that lose their connection

When the connection ends under a DoH query (policy/upstream.rs), `query` asks for a connection once more if
`h2_failed` made the error `ConnectionAborted`; it is given the old one as long as its task has not set its flag.
`Survives` is that such a query is sent once more, on another connection: `survives_run` has it for runs in which the
end is reported as a reset or a GOAWAY is and the flag is set in time. -/

namespace Boreas.Doh

open Function H2 List Runs World

/-! ### How a connection ends -/

inductive ErrorKind
  | connectionAborted
  | brokenPipe
  | connectionReset
  | timedOut
  | other (code : ℕ)
deriving DecidableEq, Repr

inductive ConnectionEnd
  | goaway
  | reset
  | eof
  | io (kind : ErrorKind)
deriving DecidableEq, Repr

/-- `h2_failed`: an I/O error keeps its kind, and an end of file is one. -/
def h2Failed : ConnectionEnd → ErrorKind
  | .goaway => .connectionAborted
  | .reset => .connectionAborted
  | .eof => .brokenPipe
  | .io kind => kind

def ErrorKind.told : ErrorKind → IoError
  | .connectionAborted => .connectionAborted
  | _ => .other

/-! ### Runs -/

/-- The steps of queries, of the attempts to connect and of the connections.  `ended` is the end of the connection under
a stream that was opened, `unusable` a reply that `exchange_h2` refuses. -/
inductive Event
  | start
  | wake (query : ℕ)
  | ready (query : ℕ) (how : ConnectionEnd)
  | send (query : ℕ) (how : ConnectionEnd)
  | ended (query : ℕ) (how : ConnectionEnd)
  | replied (query : ℕ)
  | unusable (query : ℕ)
  | connect (attempt : ℕ)
  | connectH1 (attempt : ℕ)
  | refuse (attempt : ℕ) (kind : ErrorKind)
  | settle (attempt : ℕ)
  | unwind (attempt : ℕ)
  | goaway (connection : ℕ)
  | lost (connection : ℕ)
  | ends (connection : ℕ)
  | record (connection : ℕ)

def Event.toH2 : Event → H2.Event
  | .start => .start
  | .wake k => .wake k
  | .ready k how => .ready k (h2Failed how).told
  | .send k how => .send k (h2Failed how).told
  | .ended k how => .closes k (.error (h2Failed how).told)
  | .replied k => .closes k (.ok ())
  | .unusable k => .closes k (.error .other)
  | .connect a => .connect a
  | .connectH1 a => .connectH1 a
  | .refuse a kind => .refuse a kind.told
  | .settle a => .settle a
  | .unwind a => .unwind a
  | .goaway c => .goaway c
  | .lost c => .lost c
  | .ends c => .ends c
  | .record c => .record c

def endsUnder (w : World) : Event → Option (ℕ × ℕ × ConnectionEnd)
  | .ready k how =>
    match (w.callers k).phase with
    | .holding c => if (w.conns c).accepting then none else some (k, c, how)
    | _ => none
  | .send k how =>
    match (w.callers k).phase with
    | .sending c => if (w.conns c).accepting then none else some (k, c, how)
    | _ => none
  | .ended k how =>
    match (w.callers k).phase with
    | .carried c => some (k, c, how)
    | _ => none
  | _ => none

structure Queries where
  world : World
  lost : ℕ → List ℕ

namespace Queries

def init : Queries := ⟨World.init .query, fun _ => []⟩

def step (q : Queries) (e : Event) : Queries :=
  { world := H2.step q.world e.toH2
    lost := match endsUnder q.world e with
      | some (k, c, _) => update q.lost k (c :: q.lost k)
      | none => match e with
        | .start => update q.lost q.world.nextCaller []
        | _ => q.lost }

end Queries

/-- A query fails with its connection only if it had lost another one before, and is never handed a connection again. -/
structure Survives (q : Queries) : Prop where
  again : ∀ k c, (q.world.callers k).phase = .failed (some c) → c ∈ q.lost k → ∃ c', c' ≠ c ∧ q.lost k = [c, c']
  other : ∀ k, (q.world.callers k).handed.Nodup

/-- The cell would give the connection to a query that asks now. -/
def handsOut (w : World) (c : ℕ) : Bool :=
  match w.live.state with
  | .up (.h2 c') => c' == c && !(w.conns c).ended
  | _ => false

/-- A connection that ends under a query which has not lost one yet is reported as aborted, and is no longer handed out. -/
def Noticed (q : Queries) (e : Event) : Prop :=
  match endsUnder q.world e with
  | some (k, c, how) =>
    (q.world.callers k).retried = false → h2Failed how = .connectionAborted ∧ handsOut q.world c = false
  | none => True

theorem ended_of_handsOut (h : handsOut w c = false) (hup : w.live.state = .up (.h2 c)) :
    (w.conns c).ended = true := by
  unfold handsOut at h
  rw [hup] at h
  simpa using h

/-! ### Connections that were reported -/

/-- A connection that was reported to callers: it exists, and no attempt is still to report it. -/
structure Issued (l : Live IoError Shared) (n c : ℕ) : Prop where
  lt : c < n
  yielded : ∀ a, l.attempts a ≠ .yielded (.ok (.h2 c))

def Reports (l : Live IoError Shared) (n : ℕ) : Attempt IoError Shared → Prop
  | .yielded (.ok (.h2 c)) => c < n
  | .settled (.ok (.h2 c)) => Issued l n c
  | _ => True

structure Issuing (l : Live IoError Shared) (n : ℕ) : Prop where
  live : l.Sound
  attempts : ∀ a, Reports l n (l.attempts a)
  up : ∀ c, l.state = .up (.h2 c) → Issued l n c

variable {l l' : Live IoError Shared} {n n' c : ℕ} {attempt : Attempt IoError Shared}

theorem Reports.mono (h : Reports l n attempt) (hn : n ≤ n') (hiss : ∀ c, Issued l n c → Issued l' n' c) :
    Reports l' n' attempt :=
  match attempt, h with
  | .yielded (.ok (.h2 _)), h => Nat.lt_of_lt_of_le h hn
  | .settled (.ok (.h2 c)), h => hiss c h
  | .yielded (.ok .h1), _ | .yielded (.error _), _ | .settled (.ok .h1), _ | .settled (.error _), _ | .running, _
  | .unwound, _ => trivial

theorem Issuing.update (h : Issuing l n) (hn : n ≤ n') (hlive : l'.Sound)
    (hl : l'.attempts = update l.attempts a attempt)
    (hyld : ∀ c, Issued l n c → attempt ≠ .yielded (.ok (.h2 c))) (hnew : Reports l' n' attempt)
    (hup : ∀ c, l'.state = .up (.h2 c) → l.state = .up (.h2 c) ∨ attempt = .settled (.ok (.h2 c))) :
    Issuing l' n' ∧ ∀ c, Issued l n c → Issued l' n' c := by
  have hiss : ∀ c, Issued l n c → Issued l' n' c := by
    refine fun c hc => ⟨Nat.lt_of_lt_of_le hc.lt hn, fun a' ha' => ?_⟩
    rw [hl] at ha'
    exact (forall_update_iff l.attempts fun _ x => x ≠ .yielded (.ok (.h2 c))).mpr
      ⟨hyld c hc, fun a _ => hc.yielded a⟩ a' ha'
  refine ⟨⟨hlive, fun a' => ?_, fun c hc => ?_⟩, hiss⟩
  · rw [hl]
    exact (forall_update_iff l.attempts fun _ => Reports l' n').mpr ⟨hnew, fun a _ => (h.attempts a).mono hn hiss⟩ a'
  · obtain hc | rfl := hup c hc
    · exact hiss c (h.up c hc)
    · exact hnew

theorem Issuing.begin (h : Issuing l n) (hidle : ∀ a, l.state ≠ .opening a) :
    Issuing l.begin.1 n ∧ ∀ c, Issued l n c → Issued l.begin.1 n c :=
  h.update (le_refl n) (h.live.begin hidle) rfl (fun _ _ => nofun) trivial nofun

theorem Issuing.yields (h : Issuing l n) (a : ℕ) (hother : ∀ c, outcome ≠ .ok (.h2 c)) :
    Issuing (l.yields a outcome) n ∧ ∀ c, Issued l n c → Issued (l.yields a outcome) n c := by
  have hlive := h.live.yields a outcome
  unfold Live.yields at hlive ⊢
  cases ha : l.attempts a with
  | running =>
    rw [ha] at hlive
    refine h.update (le_refl n) hlive rfl (fun c _ heq => hother c ?_) ?_ fun _ => .inl
    · cases heq
      rfl
    · match outcome, hother with
      | .ok (.h2 c), hother => exact absurd rfl (hother c)
      | .ok .h1, _ | .error _, _ => trivial
  | _ => exact ⟨h, fun _ => id⟩

theorem Issuing.connect (h : Issuing l n) (ha : l.attempts a = .running) :
    Issuing (l.yields a (.ok (.h2 n))) (n + 1) ∧ ∀ c, Issued l n c → Issued (l.yields a (.ok (.h2 n))) (n + 1) c := by
  have hlive := h.live.yields a (.ok (.h2 n))
  unfold Live.yields at hlive ⊢
  rw [ha] at hlive ⊢
  refine h.update (Nat.le_succ n) hlive rfl (fun c hc heq => ?_) (Nat.lt_succ_self n) fun _ => .inl
  cases heq
  exact lt_irrefl _ hc.lt

theorem Issuing.settle (h : Issuing l n) (a : ℕ) :
    Issuing (l.settle a) n ∧ ∀ c, Issued l n c → Issued (l.settle a) n c := by
  have hlive := h.live.settle a
  have hatt := h.attempts a
  unfold Live.settle at hlive ⊢
  cases ha : l.attempts a with
  | yielded outcome =>
    rw [ha] at hlive hatt
    have hopen := h.live.yielded a outcome ha
    match outcome with
    | .error e | .ok .h1 => exact h.update (le_refl n) hlive rfl (fun _ _ => nofun) trivial nofun
    | .ok (.h2 c) =>
      refine h.update (le_refl n) hlive rfl (fun _ _ => nofun) ⟨hatt, fun a' ha' => ?_⟩ fun c' hc' => ?_
      · -- Another attempt that yielded would be the one that the cell waits for.
        have hsame : Function.update l.attempts a (.settled (.ok (.h2 c))) a' = .yielded (.ok (.h2 c)) := ha'
        by_cases heq : a' = a
        · rw [heq, update_self] at hsame
          cases hsame
        · rw [update_of_ne heq] at hsame
          cases hopen.symm.trans (h.live.yielded a' _ hsame)
          exact heq rfl
      · cases hc'
        exact .inr rfl
  | _ => exact ⟨h, fun _ => id⟩

theorem Issuing.unwind (h : Issuing l n) (a : ℕ) :
    Issuing (l.unwind a) n ∧ ∀ c, Issued l n c → Issued (l.unwind a) n c := by
  have hlive := h.live.unwind a
  unfold Live.unwind at hlive ⊢
  cases ha : l.attempts a with
  | running =>
    rw [ha] at hlive
    exact h.update (le_refl n) hlive rfl (fun _ _ => nofun) trivial fun _ => .inl
  | _ => exact ⟨h, fun _ => id⟩

/-! ### One query -/

def busy : Phase → Bool
  | .waiting _ => true
  | .holding _ => true
  | .sending _ => true
  | .carried _ => true
  | _ => false

def current : Phase → Option ℕ
  | .holding c => some c
  | .sending c => some c
  | .carried c => some c
  | _ => none

def waits : Phase → Phase
  | .waiting a => .waiting a
  | _ => .done

/-- None of the connections that were lost can be handed to the query: they are stale for it. -/
def Gone (w : World) (lost : List ℕ) (phase : Phase) : Prop := CallerOk w ⟨false, lost, [], phase⟩

/-- What holds of one query: it was handed what it has lost and what it has, and what it has lost is gone. -/
structure QueryOk (w : World) (lost : List ℕ) (caller : Caller) : Prop where
  issued : ∀ c ∈ caller.handed, Issued w.live w.nextConn c
  nodup : caller.handed.Nodup
  handed : busy caller.phase = true → caller.handed = (current caller.phase).toList ++ lost
  count : busy caller.phase = true → lost.length = caller.retried.toNat
  gone : busy caller.phase = true → Gone w lost (waits caller.phase)
  failed : ∀ c, caller.phase = .failed (some c) → c ∈ lost → ∃ c', c' ≠ c ∧ lost = [c, c']

structure Inv (q : Queries) : Prop where
  kind : q.world.kind = .query
  issuing : Issuing q.world.live q.world.nextConn
  queries : ∀ k, QueryOk q.world (q.lost k) (q.world.callers k)

variable {q : Queries} {w w' : World} {lost : List ℕ} {caller : Caller} {k : ℕ}

theorem Inv.survives (h : Inv q) : Survives q :=
  ⟨fun k => (h.queries k).failed, fun k => (h.queries k).nodup⟩

theorem inv_init : Inv .init where
  kind := rfl
  issuing := ⟨Live.sound_new, fun _ => trivial, nofun⟩
  queries := fun _ => ⟨nofun, nodup_nil, nofun, nofun, nofun, nofun⟩

theorem queryOk_ended (caller : Caller) (phase : Phase) (hiss : ∀ c ∈ caller.handed, Issued w.live w.nextConn c)
    (hnodup : caller.handed.Nodup) (hidle : busy phase = false)
    (hfail : ∀ c, phase = .failed (some c) → c ∈ lost → ∃ c', c' ≠ c ∧ lost = [c, c']) :
    QueryOk w lost { caller with phase := phase } := by
  have hnot : ¬ busy phase = true := by rw [hidle]; exact Bool.false_ne_true
  exact ⟨hiss, hnodup, fun hbusy => absurd hbusy hnot, fun hbusy => absurd hbusy hnot,
    fun hbusy => absurd hbusy hnot, hfail⟩

/-! ### The world changes around the queries -/

theorem QueryOk.keeps (h : QueryOk w lost caller) (hiss : ∀ c, Issued w.live w.nextConn c → Issued w'.live w'.nextConn c)
    (hgone : ∀ caller, CallerOk w caller → CallerOk w' caller) : QueryOk w' lost caller :=
  ⟨fun c hc => hiss c (h.issued c hc), h.nodup, h.handed, h.count, fun hbusy => hgone _ (h.gone hbusy), h.failed⟩

theorem callerOk_setCaller (h : CallerOk w caller) (k : ℕ) (caller' : Caller) : CallerOk (w.setCaller k caller') caller :=
  { h with }

def alone (w : World) (caller : Caller) : World := { w with callers := fun _ => caller }

theorem inv_alone (hlive : w.live.Sound) (h : CallerOk w caller) : H2.Inv (alone w caller) :=
  ⟨hlive, fun _ => { h with }⟩

theorem callerOk_alone (h : H2.Inv (alone w caller)) : CallerOk w caller :=
  have hk := h.callers 0
  { hk with }

theorem Inv.around (h : Inv q) (hkind : w.kind = q.world.kind) (hcallers : w.callers = q.world.callers)
    (hiss : Issuing w.live w.nextConn ∧ ∀ c, Issued q.world.live q.world.nextConn c → Issued w.live w.nextConn c)
    (hinv : ∀ caller, H2.Inv (alone q.world caller) → H2.Inv (alone w caller)) : Inv { q with world := w } := by
  refine ⟨hkind.trans h.kind, hiss.1, fun k => ?_⟩
  rw [hcallers]
  exact (h.queries k).keeps hiss.2 fun caller hc => callerOk_alone (hinv caller (inv_alone h.issuing.live hc))

theorem inv_setConn (h : Inv q) (hended : (q.world.conns c).ended = true → conn.ended = true) :
    Inv { q with world := q.world.setConn c conn } :=
  h.around rfl rfl ⟨h.issuing, fun _ => id⟩ fun _ hinv => hinv.setConn hended

theorem inv_streams (h : Inv q) (c streams : ℕ) :
    Inv { q with world := q.world.setConn c { q.world.conns c with streams := streams } } := inv_setConn h id

theorem inv_yields (h : Inv q) (a : ℕ) (hother : ∀ c, outcome ≠ .ok (.h2 c)) :
    Inv { q with world := { q.world with live := q.world.live.yields a outcome } } :=
  h.around rfl rfl (h.issuing.yields a hother) fun _ hinv => hinv.yields a hother

theorem inv_connect (h : Inv q) (a : ℕ) : Inv { q with world := q.world.connect a } := by
  have hconnect := fun caller (hinv : H2.Inv (alone q.world caller)) => hinv.connect a
  unfold connect at hconnect ⊢
  cases ha : q.world.live.attempts a with
  | running =>
    refine h.around rfl rfl (h.issuing.connect ha) fun caller hinv => ?_
    have hafter := hconnect caller hinv
    rw [show (alone q.world caller).live.attempts a = .running from ha] at hafter
    exact hafter
  | _ => exact h

/-! ### The cell -/

def Others (q : Queries) (k : ℕ) : Prop := ∀ k' ≠ k, QueryOk q.world (q.lost k') (q.world.callers k')

theorem Inv.others (h : Inv q) (k : ℕ) : Others q k := fun k' _ => h.queries k'

theorem Others.note (h : Others q k) (lost : List ℕ) : Others { q with lost := update q.lost k lost } k := by
  intro k' hne
  dsimp only
  rw [update_of_ne hne]
  exact h k' hne

theorem inv_setCaller (hkind : q.world.kind = .query) (hiss : Issuing q.world.live q.world.nextConn)
    (hoth : Others q k) (hk : QueryOk q.world (q.lost k) caller) :
    Inv { q with world := q.world.setCaller k caller } := by
  refine ⟨hkind, hiss, fun k' => ?_⟩
  refine QueryOk.keeps (w := q.world) ?_ (fun _ => id) fun _ hc => callerOk_setCaller hc k caller
  exact (forall_update_iff q.world.callers fun k => QueryOk q.world (q.lost k)).mpr ⟨hk, hoth⟩ k'

structure Asking (w : World) (lost : List ℕ) (caller : Caller) : Prop where
  issued : ∀ c ∈ lost, Issued w.live w.nextConn c
  nodup : lost.Nodup
  handed : caller.handed = lost
  count : lost.length = caller.retried.toNat
  gone : Gone w lost .done

theorem Asking.waits (h : Asking w lost caller) (hlt : a < w.live.next)
    (hcomes : ∀ c ∈ lost, ¬ w.live.comesTo a (.h2 c)) : QueryOk w lost { caller with phase := .waiting a } := by
  refine ⟨fun c hc => h.issued c (h.handed ▸ hc), h.handed ▸ h.nodup, fun _ => h.handed, fun _ => h.count,
    fun _ => ⟨h.gone.stale_lt, h.gone.up, h.gone.yielded, fun a' ha' => ?_, nofun, by simp [Doh.waits]⟩, nofun⟩
  cases ha'
  exact ⟨hlt, hcomes⟩

theorem Asking.take (h : Asking w lost caller) (hnew : ∀ c, shared = .h2 c → Issued w.live w.nextConn c ∧ c ∉ lost) :
    QueryOk w lost (World.Caller.take caller shared) := by
  cases shared with
  | h1 => exact ⟨fun c hc => h.issued c (h.handed ▸ hc), h.handed ▸ h.nodup, nofun, nofun, nofun, nofun⟩
  | h2 c =>
    obtain ⟨hc, hnot⟩ := hnew c rfl
    have hhand : c :: caller.handed = c :: lost := by rw [h.handed]
    refine ⟨fun c' hc' => ?_, ?_, fun _ => hhand, fun _ => h.count, fun _ => h.gone, nofun⟩
    · change c' ∈ c :: caller.handed at hc'
      rw [hhand] at hc'
      obtain rfl | hc' := mem_cons.mp hc'
      · exact hc
      · exact h.issued c' hc'
    · change (c :: caller.handed).Nodup
      rw [hhand]
      exact nodup_cons.mpr ⟨hnot, h.nodup⟩

theorem inv_getFor (hkind : q.world.kind = .query) (hiss : Issuing q.world.live q.world.nextConn) (hoth : Others q k)
    (hk : Asking q.world (q.lost k) (q.world.callers k)) : Inv { q with world := q.world.getFor k } := by
  obtain ⟨shared, hup, halive, heq⟩ | ⟨a, hopen, heq⟩ | ⟨hidle, heq⟩ := getFor_cases q.world k
  · rw [heq]
    refine inv_setCaller hkind hiss hoth (hk.take fun c hshared => ?_)
    subst hshared
    refine ⟨hiss.up c hup, fun hlost => ?_⟩
    have hended := hk.gone.up c hlost hup
    simp [alive, hended] at halive
  · rw [heq]
    refine inv_setCaller hkind hiss hoth (hk.waits (hiss.live.lt_next a hopen) fun c hc hcomes => ?_)
    obtain hyld | hset := hcomes
    · exact hk.gone.yielded c hc a hyld
    · exact hiss.live.unsettled a _ hopen hset
  · rw [heq]
    obtain ⟨hiss', hissued⟩ := hiss.begin hidle
    have hbegin : ∀ caller, CallerOk q.world caller → CallerOk { q.world with live := q.world.live.begin.1 } caller :=
      fun _ hc => hc.begin
    have hasking : Asking { q.world with live := q.world.live.begin.1 } (q.lost k) (q.world.callers k) :=
      ⟨fun c hc => hissued c (hk.issued c hc), hk.nodup, hk.handed, hk.count, hbegin _ hk.gone⟩
    refine inv_setCaller (q := { q with world := { q.world with live := q.world.live.begin.1 } }) hkind hiss'
      (fun k' hne => (hoth k' hne).keeps hissued hbegin) (hasking.waits (Nat.lt_succ_self _) fun c _ hcomes => ?_)
    simp [Live.comesTo, Live.begin] at hcomes

/-! ### A query loses its connection -/

theorem busy_of_current (h : current phase = some c) : busy phase = true := by
  cases phase with
  | holding | sending | carried => rfl
  | _ => cases h

theorem waits_of_current (h : current phase = some c) : waits phase = .done := by
  cases phase with
  | holding | sending | carried => rfl
  | _ => cases h

theorem QueryOk.handed_eq (h : QueryOk w lost caller) (hc : current caller.phase = some c) : caller.handed = c :: lost := by
  rw [h.handed (busy_of_current hc), hc]
  rfl

theorem inv_lost (h : Inv q) (hc : current (q.world.callers k).phase = some c)
    (hnote : (q.world.callers k).retried = false → h2Failed how = .connectionAborted ∧ handsOut q.world c = false) :
    Inv ⟨q.world.refused k c (h2Failed how).told, update q.lost k (c :: q.lost k)⟩ := by
  have hk := h.queries k
  have hhand := hk.handed_eq hc
  have hcount := hk.count (busy_of_current hc)
  have hiss : ∀ c' ∈ c :: q.lost k, Issued q.world.live q.world.nextConn c' := fun c' hc' => hk.issued c' (hhand ▸ hc')
  have hnodup : (c :: q.lost k).Nodup := hhand ▸ hk.nodup
  have hoth := (h.others k).note (c :: q.lost k)
  unfold refused
  rw [h.kind]
  dsimp only
  cases hretr : (q.world.callers k).retried with
  | false =>
    obtain ⟨haborted, hgone⟩ := hnote hretr
    rw [hretr] at hcount
    rw [haborted]
    have hnone : q.lost k = [] := length_eq_zero_iff.mp hcount
    have hstale : Gone q.world (c :: q.lost k) .done := by
      refine ⟨fun c' hc' => (hiss c' hc').lt, fun c' hc' hup => ?_, fun c' hc' => (hiss c' hc').yielded, nofun, nofun,
        by simp⟩
      obtain rfl : c' = c := by simpa [hnone] using hc'
      exact ended_of_handsOut hgone hup
    refine inv_getFor
      (q := ⟨q.world.setCaller k { q.world.callers k with retried := true }, update q.lost k (c :: q.lost k)⟩)
      h.kind h.issuing (fun k' hne => ?_) ?_
    · change QueryOk _ _ (update q.world.callers k _ k')
      rw [update_of_ne hne]
      exact (hoth k' hne).keeps (fun _ => id) fun _ hc => callerOk_setCaller hc k _
    · change Asking _ (update q.lost k _ k) (update q.world.callers k _ k)
      rw [update_self, update_self]
      exact ⟨hiss, hnodup, hhand, by rw [hnone]; rfl, callerOk_setCaller hstale k _⟩
  | true =>
    rw [hretr] at hcount
    obtain ⟨c', hc'⟩ := length_eq_one_iff.mp hcount
    rw [if_neg fun hboth => by cases hboth.2]
    refine inv_setCaller (q := ⟨q.world, update q.lost k (c :: q.lost k)⟩) h.kind h.issuing hoth ?_
    change QueryOk q.world (update q.lost k _ k) _
    rw [update_self]
    refine queryOk_ended { q.world.callers k with retried := true } (.failed (some c)) hk.issued hk.nodup rfl
      fun c'' heq _ => ?_
    cases heq
    refine ⟨c', fun hsame => ?_, by rw [hc']⟩
    rw [hc', hsame] at hnodup
    exact (nodup_cons.mp hnodup).1 mem_cons_self

theorem inv_unusable (h : Inv q) (hc : current (q.world.callers k).phase = some c) :
    Inv ⟨q.world.refused k c .other, q.lost⟩ := by
  have hk := h.queries k
  unfold refused
  rw [h.kind]
  refine inv_setCaller h.kind h.issuing (h.others k) (queryOk_ended _ (.failed (some c)) hk.issued hk.nodup rfl
    fun c' heq hlost => ?_)
  cases heq
  have hnodup := hk.nodup
  rw [hk.handed_eq hc] at hnodup
  exact absurd hlost (nodup_cons.mp hnodup).1

/-! ### The steps of a query -/

theorem inv_proceeds (h : Inv q) (hc : current (q.world.callers k).phase = some c) (hphase : current phase = some c) :
    Inv { q with world := q.world.setCaller k { q.world.callers k with phase := phase } } := by
  have hk := h.queries k
  have hbusy := busy_of_current hc
  refine inv_setCaller h.kind h.issuing (h.others k) ⟨hk.issued, hk.nodup, fun _ => ?_, fun _ => hk.count hbusy,
    fun _ => ?_, fun c' hfail => ?_⟩
  · rw [hphase]
    exact hk.handed_eq hc
  · have hgone := hk.gone hbusy
    rw [waits_of_current hc] at hgone
    rw [waits_of_current hphase]
    exact hgone
  · change phase = _ at hfail
    rw [hfail] at hphase
    cases hphase

theorem inv_start (h : Inv q) : Inv ⟨q.world.start, update q.lost q.world.nextCaller []⟩ := by
  have hoth := (h.others q.world.nextCaller).note []
  refine inv_getFor (q := ⟨{ q.world.setCaller q.world.nextCaller ⟨false, q.world.stopped, [], .done⟩ with
    nextCaller := q.world.nextCaller + 1 }, update q.lost q.world.nextCaller []⟩) h.kind h.issuing
    (fun k' hne => ?_) ?_
  · change QueryOk _ _ (update q.world.callers q.world.nextCaller _ k')
    rw [update_of_ne hne]
    exact (hoth k' hne).keeps (fun _ => id) fun _ hc =>
      { hc with }
  · change Asking _ (update q.lost _ [] _) (update q.world.callers _ _ _)
    rw [update_self, update_self]
    exact ⟨nofun, nodup_nil, rfl, rfl, nofun, nofun, nofun, nofun, nofun, by simp⟩

theorem inv_wake (h : Inv q) (k : ℕ) : Inv { q with world := q.world.wake k } := by
  have hk := h.queries k
  unfold wake
  cases hphase : (q.world.callers k).phase with
  | waiting a =>
    have hbusy : busy (q.world.callers k).phase = true := by rw [hphase]; rfl
    have hgone := hk.gone hbusy
    rw [hphase] at hgone
    have hhand : (q.world.callers k).handed = q.lost k := by
      rw [hk.handed hbusy, hphase]
      rfl
    have hfail : Inv { q with world := q.world.setCaller k { q.world.callers k with phase := .failed none } } :=
      inv_setCaller h.kind h.issuing (h.others k) (queryOk_ended _ (.failed none) hk.issued hk.nodup rfl nofun)
    have hasking : Asking q.world (q.lost k) (q.world.callers k) :=
      ⟨fun c hc => hk.issued c (hhand ▸ hc), hhand ▸ hk.nodup, hhand, hk.count hbusy,
        hgone.setPhase nofun (by simp)⟩
    have hatt := h.issuing.attempts a
    dsimp only [Live.received]
    cases ha : q.world.live.attempts a with
    | running | yielded outcome => exact h
    | unwound => exact hfail
    | settled outcome =>
      rcases outcome with _ | shared
      · exact hfail
      refine inv_setCaller h.kind h.issuing (h.others k) (hasking.take fun c hshared => ?_)
      subst hshared
      rw [ha] at hatt
      exact ⟨hatt, fun hc => (hgone.waiting a rfl).2 c hc (.inr ha)⟩
  | _ => exact h

/-! ### Whole runs -/

theorem inv_ready (h : Inv q) (hnote : Noticed q (.ready k how)) : Inv (q.step (.ready k how)) := by
  dsimp only [Noticed, endsUnder] at hnote
  dsimp only [Queries.step, endsUnder, Event.toH2, H2.step]
  unfold ready
  cases hphase : (q.world.callers k).phase with
  | holding c =>
    have hc : current (q.world.callers k).phase = some c := by rw [hphase]; rfl
    rw [hphase] at hnote
    dsimp only at hnote ⊢
    by_cases hacc : (q.world.conns c).accepting = true
    · rw [if_pos hacc, if_pos hacc]
      exact inv_proceeds h hc rfl
    · rw [if_neg hacc] at hnote ⊢
      rw [if_neg hacc]
      exact inv_lost h hc hnote
  | _ => exact h

theorem inv_send (h : Inv q) (hnote : Noticed q (.send k how)) : Inv (q.step (.send k how)) := by
  dsimp only [Noticed, endsUnder] at hnote
  dsimp only [Queries.step, endsUnder, Event.toH2, H2.step]
  unfold send
  cases hphase : (q.world.callers k).phase with
  | sending c =>
    have hc : current (q.world.callers k).phase = some c := by rw [hphase]; rfl
    rw [hphase] at hnote
    dsimp only at hnote ⊢
    by_cases hacc : (q.world.conns c).accepting = true
    · rw [if_pos hacc, if_pos hacc]
      exact inv_proceeds (inv_streams h c _) hc rfl
    · rw [if_neg hacc] at hnote ⊢
      rw [if_neg hacc]
      exact inv_lost h hc hnote
  | _ => exact h

theorem handsOut_setConn : handsOut (w.setConn c { w.conns c with streams := streams }) c' = handsOut w c' := by
  have hflag : ((w.setConn c { w.conns c with streams := streams }).conns c').ended = (w.conns c').ended := by
    change (update w.conns c _ c').ended = _
    by_cases heq : c' = c
    · rw [heq, update_self]
    · rw [update_of_ne heq]
  unfold handsOut
  rw [hflag]
  rfl

theorem closes_error (hkind : w.kind = .query) (hphase : (w.callers k).phase = .carried c) :
    w.closes k (.error error) =
      (w.setConn c { w.conns c with streams := (w.conns c).streams - 1 }).refused k c error := by
  unfold closes
  rw [hphase]
  dsimp only [setConn]
  rw [hkind]

theorem closes_idle (h : ∀ c, (w.callers k).phase ≠ .carried c) : w.closes k result = w := by
  unfold closes
  split
  · exact absurd ‹_› (h _)
  · rfl

theorem inv_closed (h : Inv q) (hnote : Noticed q (.ended k how)) : Inv (q.step (.ended k how)) := by
  dsimp only [Noticed, endsUnder] at hnote
  dsimp only [Queries.step, endsUnder, Event.toH2, H2.step]
  cases hphase : (q.world.callers k).phase with
  | carried c =>
    rw [hphase] at hnote
    rw [closes_error h.kind hphase]
    refine inv_lost (inv_streams h c _) (congrArg current hphase) fun hretr => ?_
    rw [handsOut_setConn]
    exact hnote hretr
  | _ =>
    rw [closes_idle (by rw [hphase]; exact nofun)]
    exact h

theorem inv_replied (h : Inv q) (k : ℕ) : Inv (q.step (.replied k)) := by
  dsimp only [Queries.step, Event.toH2, H2.step]
  cases hphase : (q.world.callers k).phase with
  | carried c =>
    have hw := inv_streams h c ((q.world.conns c).streams - 1)
    have hcl : q.world.closes k (.ok ()) = (q.world.setConn c
        { q.world.conns c with streams := (q.world.conns c).streams - 1 }).setCaller k
          { q.world.callers k with phase := .done } := by
      unfold closes
      rw [hphase]
      rfl
    have hk := hw.queries k
    rw [hcl]
    exact inv_setCaller hw.kind hw.issuing (hw.others k) (queryOk_ended _ .done hk.issued hk.nodup rfl nofun)
  | _ =>
    rw [closes_idle (by rw [hphase]; exact nofun)]
    exact h

theorem inv_refuses (h : Inv q) (k : ℕ) : Inv (q.step (.unusable k)) := by
  dsimp only [Queries.step, Event.toH2, H2.step]
  cases hphase : (q.world.callers k).phase with
  | carried c =>
    rw [closes_error h.kind hphase]
    exact inv_unusable (inv_streams h c _) (congrArg current hphase)
  | _ =>
    rw [closes_idle (by rw [hphase]; exact nofun)]
    exact h

theorem Inv.step (h : Inv q) (hnote : Noticed q e) : Inv (q.step e) := by
  cases e with
  | start => exact inv_start h
  | wake k => exact inv_wake h k
  | ready k how => exact inv_ready h hnote
  | send k how => exact inv_send h hnote
  | ended k how => exact inv_closed h hnote
  | replied k => exact inv_replied h k
  | unusable k => exact inv_refuses h k
  | connect a => exact inv_connect h a
  | connectH1 a =>
    unfold Queries.step
    dsimp only [Event.toH2, H2.step]
    rw [if_pos h.kind]
    exact inv_yields h a nofun
  | refuse a kind => exact inv_yields h a nofun
  | settle a => exact h.around rfl rfl (h.issuing.settle a) fun _ hinv => hinv.settle a
  | unwind a => exact h.around rfl rfl (h.issuing.unwind a) fun _ hinv => hinv.unwind a
  | goaway c | lost c => exact inv_setConn h id
  | ends c =>
    unfold Queries.step
    dsimp only [Event.toH2, H2.step]
    split_ifs
    · exact inv_setConn h id
    · exact h
  | record c =>
    unfold Queries.step
    dsimp only [Event.toH2, H2.step]
    split_ifs
    · exact inv_setConn h fun _ => rfl
    · exact h

/-- **A query survives the end of its connection** in every run in which the end reaches it as an aborted connection,
after the flag of the connection was set or another one took its place. -/
theorem survives_run (es : List Event) (h : Along Queries.step Noticed .init es) :
    Survives (run Queries.step .init es) :=
  (run_invariant (I := Inv) (fun _ _ hq hnote => hq.step hnote) es _ inv_init h).survives

def carriedFirst : List Event := [.start, .connect 0, .settle 0, .wake 0, .ready 0 .reset, .send 0 .reset]

theorem survives_reset : Survives (run Queries.step .init
      (carriedFirst ++ [.lost 0, .record 0, .ended 0 .reset, .connect 1, .settle 1, .wake 0])) ∧
      ((run Queries.step .init
        (carriedFirst ++ [.lost 0, .record 0, .ended 0 .reset, .connect 1, .settle 1, .wake 0])).world.callers 0).phase =
        .holding 1 :=
  ⟨survives_run _ ⟨trivial, trivial, trivial, trivial, trivial, trivial, trivial, trivial, fun _ => ⟨rfl, rfl⟩, trivial,
    trivial, trivial, trivial⟩, by decide⟩

def afterEof : Queries := run Queries.step .init (carriedFirst ++ [.lost 0, .record 0, .ended 0 .eof])

/-- The query sees the reset before the flag of the connection is set. -/
def beforeFlag : Queries :=
  run Queries.step .init (carriedFirst ++ [.lost 0, .ended 0 .reset, .record 0, .ready 0 .reset])

/-- An end of file fails the query at once; and a query that sees the reset before the flag is set is given the same
connection again, and fails with it. -/
theorem lost_queries :
    ((afterEof.world.callers 0).phase = .failed (some 0) ∧ afterEof.lost 0 = [0] ∧ ¬ Survives afterEof) ∧
      (beforeFlag.world.callers 0).phase = .failed (some 0) ∧ (beforeFlag.world.callers 0).handed = [0, 0] ∧
      ¬ Survives beforeFlag := by
  refine ⟨⟨by decide, by decide, fun h => ?_⟩, by decide, by decide, fun h => ?_⟩
  · obtain ⟨c', -, hlost⟩ := h.again 0 0 (by decide) (by decide)
    cases hlost
  · exact absurd (h.other 0) (by decide)

end Boreas.Doh
