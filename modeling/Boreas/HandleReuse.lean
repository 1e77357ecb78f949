import Boreas.Handles

/-! # Reused handles

Along every run in which the reactor takes every segment, and the second poll of a pass finds no listener closed with
its endpoints known, a stream is pumped with its own connection only and removed by its own end only
(`separate_of_orderly`).  Such a listener's end is told before its stream is handed out. -/

namespace Boreas.L4

open List Runs Table

namespace Terminators

open LocalStack

/-! ### Steps of a pass -/

section Steps

variable {t : Terminators}

theorem Ledger.turn (h : Ledger t) (turn : Turn) : Ledger { t with turn := turn } := { h with }

theorem Ledger.tail (h : Ledger t) (hcons : t.stack.accepted = a :: rest) :
    Ledger { t with stack := { t.stack with accepted := rest } } := by
  have hsub : ∀ a' ∈ rest, a' ∈ t.stack.accepted := fun a' ha' => hcons ▸ mem_cons_of_mem a ha'
  have hdist := h.distinct
  rw [hcons, map_cons, nodup_cons] at hdist
  exact
    { h with
      books := { h.books with }
      accepted := fun a' ha' => h.accepted a' (hsub a' ha')
      fresh := fun a' ha' => h.fresh a' (hsub a' ha')
      distinct := hdist.2 }

theorem Ledger.publish (h : Ledger t) (hcons : t.stack.accepted = a :: rest) : Ledger { t with
        stack := { t.stack with accepted := rest }
        conns := t.conns.insert a.id ⟨a.serial, .pair⟩ } := by
  have hdist := h.distinct
  rw [hcons, map_cons, nodup_cons] at hdist
  refine { h.tail hcons with conns := ?_, fresh := fun a' ha' => ?_ }
  · exact forall_lookup_insert (P := _) a.id (h.accepted a (hcons ▸ mem_cons_self)) h.conns
  · have hne : a'.id ≠ a.id := fun heq => hdist.1 (heq ▸ mem_map_of_mem ha')
    rw [lookup_insert_eq, if_neg hne]
    exact h.fresh a' (hcons ▸ mem_cons_of_mem a ha')

theorem unanswered_put (h : Unanswered s) (id : ℕ) (e : Entry) : Unanswered (s.put id e) := by
  intro ended hended
  rw [(keeps_put s id e).closed] at hended
  exact (s.serialAt_put id e ended.id).2.trans (h ended hended)

theorem settled_next (hnone : s.accepted = []) (h : Unanswered s) : ∀ order, Settled s (next order)
  | [] => ⟨hnone, h⟩
  | _ :: _ => ⟨hnone, h⟩

theorem Ledger.accept [Smoltcp] (h : Ledger t) (hunans : Unanswered t.stack) (hturn : t.turn = .accepting) (refused : Bool)
    (order : List ℕ) :
    Ledger (t.accept refused order) ∧ Settled (t.accept refused order).stack (t.accept refused order).turn := by
  unfold Terminators.accept
  rcases hcons : t.stack.accepted with _ | ⟨a, rest⟩
  · exact ⟨h.turn _, settled_next hcons hunans order⟩
  split_ifs
  · have hput := h.put (Entry.served_abort (t.stack.entry a.id))
    have hcons' : ({ t with stack := t.stack.abort a.id } : Terminators).stack.accepted = a :: rest :=
      (keeps_put t.stack a.id _).accepted.trans hcons
    refine ⟨hput.tail hcons', ?_⟩
    rw [hturn]
    exact unanswered_put hunans a.id _
  · refine ⟨h.publish hcons, ?_⟩
    rw [hturn]
    exact hunans

theorem Ledger.meets (h : Ledger t) {id : ℕ} (hp : t.conns.lookup id = some p) : ∀ m ∈ t.meets id p, m.1 = m.2 := by
  intro m hm
  unfold Terminators.meets at hm
  split_ifs at hm with hin
  · obtain ⟨serial, hser, rfl⟩ := mem_map.mp hm
    rw [Option.mem_toList] at hser
    obtain ⟨-, hlive⟩ | hended := h.conns id p hp
    · rw [hlive] at hser
      exact (Option.mem_some_iff.mp hser).symm
    · obtain ⟨e, he, rfl, -⟩ := mem_ids hended
      exact absurd hin (h.gone e he)
  · cases hm

theorem Ledger.pumpTurn [Smoltcp] (h : Ledger t) (hnone : t.stack.accepted = []) (hunans : Unanswered t.stack) (id : ℕ)
    (rest : List ℕ) (hphase : phase = .receiving ∨ phase = .sending) :
    Ledger (t.pumpTurn id rest phase) ∧ Settled (t.pumpTurn id rest phase).stack (t.pumpTurn id rest phase).turn := by
  unfold Terminators.pumpTurn
  rcases hp : t.conns.lookup id with _ | p
  · exact ⟨h.turn _, settled_next hnone hunans rest⟩
  dsimp only
  have hserv := Terminator.served_drive (t.stack.entry id) p.bridge hphase
  generalize (⟨t.stack.entry id, true, some p.bridge, phase⟩ : Terminator).drive false = one at hserv ⊢
  have hput := h.put hserv
  have hnone' : (t.stack.put id one.entry).accepted = [] := (keeps_put t.stack id _).accepted.trans hnone
  have hunans' := unanswered_put hunans id one.entry
  constructor
  · refine
      { hput with
        conns := forall_lookup_insert (P := _) id (hput.conns id p hp) hput.conns
        fresh := fun a ha => ?_
        touched := fun m hm => ?_ }
    · exact absurd ha (by rw [hnone']; exact not_mem_nil)
    · obtain hm | hm := mem_append.mp hm
      · exact h.touched m hm
      · exact h.meets hp m hm
  · cases one.phase with
    | receiving | sending => exact ⟨hnone', hunans'⟩
    | _ => exact settled_next hnone' hunans' rest

theorem Ledger.told (h : Ledger t) (hlive : AllLive t.stack) (hcons : t.stack.closed = e :: rest)
    (hconns : t.conns.lookup e.id = none) : Ledger { t with stack := { t.stack with closed := rest } } := by
  have huniq := h.unique
  rw [hcons, map_cons, nodup_cons] at huniq
  refine
    { h with
      books := { h.books with }
      accepted := fun a ha => .inl (hlive a ha)
      conns := fun id p hp => (h.conns id p hp).imp_right fun hmem => ?_
      unique := huniq.2
      gone := fun e' he' => h.gone e' (hcons ▸ mem_cons_of_mem e he') }
  rw [hcons, map_cons, mem_cons] at hmem
  -- the streams of other connections do not need this end
  refine hmem.resolve_left fun heq => ?_
  rw [show id = e.id from congrArg Prod.fst heq, hconns] at hp
  cases hp

theorem Ledger.remove (h : Ledger t) (hended : e ∈ t.stack.closed) (hp : t.conns.lookup e.id = some p) :
    Ledger { t with conns := t.conns.erase e.id, cut := t.cut ++ [(e.serial, p.serial)] } := by
  refine { h with conns := fun id p' hid => ?_, fresh := fun a ha => ?_, cut := fun m hm => ?_ }
  · dsimp only at hid
    rw [lookup_erase_eq] at hid
    split_ifs at hid
    exact h.conns id p' hid
  · dsimp only
    rw [lookup_erase_eq, h.fresh a ha]
    exact ite_self _
  · obtain hm | hm := mem_append.mp hm
    · exact h.cut m hm
    rw [mem_singleton.mp hm]
    obtain ⟨hin, -⟩ | hmem := h.conns e.id p hp
    · exact absurd hin (h.gone e hended)
    · obtain ⟨e', he', hid, hser⟩ := mem_ids hmem
      rw [← h.ended_unique he' hended hid]
      exact hser

theorem Ledger.finish (h : Ledger t) (hlive : AllLive t.stack) (hturn : t.turn = .ending) :
    Ledger t.finish ∧ Settled t.finish.stack t.finish.turn := by
  unfold Terminators.finish
  rcases hcons : t.stack.closed with _ | ⟨ended, rest⟩
  · exact ⟨h.turn _, hcons⟩
  have hset : Settled { t.stack with closed := rest } t.turn := hturn ▸ hlive
  dsimp only
  rcases hp : t.conns.lookup ended.id with _ | p
  · exact ⟨h.told hlive hcons hp, hset⟩
  have hrem := h.remove (hcons ▸ mem_cons_self) hp
  exact ⟨hrem.told hlive hcons (by rw [lookup_erase_eq, if_pos rfl]), hset⟩

end Steps

/-! ### Runs -/

section Runs

variable [Smoltcp]

/-- The reactor takes every segment, and the second poll of a pass finds no listener closed with its endpoints known. -/
def Orderly (t : Terminators) : Op → Prop
  | .poll events => t.turn = .polling true → ∀ l ∈ t.stack.listeners,
      ¬ ((t.stack.seen events).stateOf l.handle = some .closed ∧ (t.stack.seen events).tupled l.handle = true)
  | .transmit _ refused => refused = false
  | _ => True

instance (t : Terminators) : ∀ op, Decidable (t.Orderly op)
  | .poll events => inferInstanceAs (Decidable (t.turn = .polling true → ∀ l ∈ t.stack.listeners,
      ¬ ((t.stack.seen events).stateOf l.handle = some .closed ∧ (t.stack.seen events).tupled l.handle = true)))
  | .transmit _ refused => inferInstanceAs (Decidable (refused = false))
  | .push _ | .wake | .accept _ _ | .pump | .finish | .read _ _ | .write _ _ | .shutdown _ | .drop _ => isTrue trivial

/-- The handles of listeners and of connections are those of existing sockets, each of one of them, and no more than
the ceiling; and whenever a stream was pumped on a connection, or removed by an end, it was that connection's. -/
structure Separate (t : Terminators) : Prop where
  nodup : (t.stack.listeners.map Listener.handle ++ t.stack.established).Nodup
  exist : ∀ handle ∈ t.stack.listeners.map Listener.handle ++ t.stack.established,
    (t.stack.sockets.lookup handle).isSome
  ceiling : t.stack.socketCount ≤ t.stack.limits.maxSockets
  touched : ∀ m ∈ t.touched, m.1 = m.2
  cut : ∀ m ∈ t.cut, m.1 = m.2

omit [Smoltcp] in
theorem Ledger.separate (h : Ledger t) : Separate t where
  nodup := by simpa using h.books.nodup
  exist := fun handle hmem => (h.books.exists_iff handle).mpr (by simpa using hmem)
  ceiling := h.books.ceiling
  touched := h.touched
  cut := h.cut

/-- The ledger is right, and settled as far as the pass has come. -/
def Good (t : Terminators) : Prop := Ledger t ∧ Settled t.stack t.turn

omit [Smoltcp] in
/-- A step that is taken at one point of a pass only. -/
theorem Good.when (h : Good t)
    (hstep : t.turn = point → Ledger t → Settled t.stack point → Good t') : Good (if t.turn = point then t' else t) := by
  split_ifs with hturn
  · exact hstep hturn h.1 (hturn ▸ h.2)
  · exact h

theorem Good.push {t : Terminators} (h : Good t) (pkt : Bytes) : Good (t.step (.push pkt)) :=
  h.when fun hturn hled hset => by
    have hgrown := grown_push t.stack pkt
    refine ⟨hled.keeps hgrown.keeps (hled.books.push pkt) (hgrown.stays hled.waiting), ?_⟩
    show Settled (t.stack.push pkt) t.turn
    rw [hturn]
    exact hgrown.closed.trans hset

theorem Good.poll (h : Good t) (hord : t.Orderly (.poll events)) : Good (t.step (.poll events)) := by
  dsimp only [step]
  obtain ⟨hled, hset⟩ := h
  cases hturn : t.turn with
  | polling again =>
    rw [hturn] at hset
    cases again with
    | false =>
      have hnone : t.stack.closed = [] := hset
      refine ⟨(hled.poll events fun id _ e he => ?_).turn _, unanswered_after_poll hled events fun e he => ?_⟩
      · rw [hnone] at he
        cases he
      · rw [hnone] at he
        cases he
    | true =>
      obtain ⟨hnone, hunans⟩ := hset
      have hjoin : ∀ id ∈ (t.stack.seen events).joined,
          t.stack.answeredAt id = true ∧ (t.stack.seen events).stateOf id ≠ some .closed :=
        fun id hid => answered_of_joined hled hid (hord hturn)
      have hpoll := hled.poll events fun id hid e he heq => by
        have hnot := hunans e he
        rw [heq, (hjoin id hid).1] at hnot
        cases hnot
      exact ⟨hpoll.turn _, allLive_after_poll hpoll hled.books hnone fun id hid => (hjoin id hid).2⟩
  | _ => exact ⟨hled, hset⟩

theorem Good.pump (h : Good t) : Good (t.step .pump) := by
  dsimp only [step]
  obtain ⟨hled, hset⟩ := h
  cases hturn : t.turn with
  | receiving id rest =>
    rw [hturn] at hset
    exact hled.pumpTurn hset.1 hset.2 id rest (.inl rfl)
  | sending id rest =>
    rw [hturn] at hset
    exact hled.pumpTurn hset.1 hset.2 id rest (.inr rfl)
  | _ => exact ⟨hled, hset⟩

omit [Smoltcp] in
theorem stays_transmit {s : LocalStack} (hstays : s.AllStay) (handles : List ℕ) : (s.transmit handles).AllStay := by
  refine hstays.of_states fun l hl => ⟨hl, ?_⟩
  unfold stateOf transmit
  rw [lookup_retain]
  cases s.sockets.lookup l.handle <;> rfl

theorem Good.transmit (h : Good t) (handles : List ℕ) : Good (t.step (.transmit handles false)) := by
  refine h.when fun _ hled hset => ?_
  have hkeeps := keeps_transmit t.stack handles
  exact ⟨(hled.keeps hkeeps (hled.books.transmit handles) (stays_transmit hled.waiting handles)).turn _,
    fun a ha => hkeeps.live (hset a ha)⟩

theorem Good.step (h : Good t) (hord : t.Orderly op) : Good (t.step op) := by
  cases op with
  | push pkt => exact h.push pkt
  | wake => exact h.when fun _ hled hset => ⟨hled.turn _, hset⟩
  | poll evs => exact h.poll hord
  | accept refused order =>
    exact h.when fun hturn hled hset => hled.accept hset hturn refused order
  | pump => exact h.pump
  | transmit handles refused =>
    rw [show refused = false from hord]
    exact h.transmit handles
  | finish => exact h.when fun hturn hled hset => hled.finish hset hturn
  | read serial room => exact ⟨h.1.onStream serial fun b => (b.pollRead room).1, h.2⟩
  | write serial bytes => exact ⟨h.1.onStream serial fun b => (b.pollWrite bytes).1, h.2⟩
  | shutdown serial | drop serial => exact ⟨h.1.onStream serial _, h.2⟩

theorem good_start {ports : List ℕ} {limits : TerminationLimits}
    (h : new ports limits = some s) (everyPort : Bool) : Good (start { s with everyPort := everyPort }) := by
  have hbooks := books_new h
  unfold new at h
  split_ifs at h
  cases h
  have hgrown := grown_replenish ports (bare ports limits)
  have hbare : Ledger (start (bare ports limits)) :=
    ⟨books_bare ports limits, nofun, nofun, nofun, nodup_nil, nofun, nofun, nodup_nil, nofun, nofun⟩
  have hled := hbare.keeps hgrown.keeps hbooks (hgrown.stays nofun)
  exact ⟨{ hled with books := { hbooks with } }, hgrown.closed⟩

/-- **Streams and connections stay together** along every orderly run. -/
theorem separate_of_orderly {ports : List ℕ} {limits : TerminationLimits} {s : LocalStack}
    (h : new ports limits = some s) (everyPort : Bool) (ops : List Op)
    (horderly : Along step Orderly (start { s with everyPort := everyPort }) ops) :
    Separate (run step (start { s with everyPort := everyPort }) ops) :=
  (run_invariant (I := Good) (G := Orderly) (fun _ _ h horderly => h.step horderly) ops _
    (good_start h everyPort) horderly).1.separate

end Runs

def oneBacklog : TerminationLimits := ⟨2, 1, 4096, by decide, by decide, by decide⟩

def httpsStack : LocalStack := (bare [443] oneBacklog).replenishListeners

/-- A pass in which the two polls find these events, the streams are pumped once each in the order, and these SYN-ACKs
leave. -/
def pass (first second : ℕ → List Event) (accepts : List Op) (handles : List ℕ) (ends : ℕ) : List Op :=
  [.wake, .poll first] ++ accepts ++ [.poll second, .transmit handles false] ++ List.replicate ends .finish

def only (handle : ℕ) (event : Event) (other : ℕ) : List Event := if other = handle then [event] else []

def quiet (_ : ℕ) : List Event := []

def oneConnection : List Op :=
  pass (only 0 .syn) quiet [.accept false []] [0] 1 ++
    pass (only 0 .ack) quiet [.accept false [], .accept false [0], .pump, .pump, .pump] [] 1 ++
    pass (only 0 .rst) quiet [.accept false [0], .pump, .pump, .pump] [] 2

theorem separate_oneConnection : new [443] oneBacklog = some httpsStack ∧
    Separate (run step (start { httpsStack with everyPort := false }) oneConnection) := by
  have hnew : new [443] oneBacklog = some httpsStack := rfl
  exact ⟨hnew, separate_of_orderly hnew false oneConnection (by decide +kernel)⟩

/-- A listener times out in the second poll of a pass with its RST still to be sent: it is published and reaped at
once, its end is told in the same pass, and its stream is handed out in the next one.  The handle comes back, and the
connection that has it next is refused. -/
def leftOver : List Op :=
  pass (only 0 .syn) quiet [.accept false []] [0] 1 ++
    pass quiet (only 0 .timeout) [.accept false []] [] 2 ++
    pass (only 1 .syn) quiet [.accept false [], .accept false [0], .pump, .pump] [1] 1 ++
    pass (only 0 .syn) quiet [.accept false [0], .pump, .pump] [0] 1 ++
    pass (only 0 .ack) quiet [.accept true [], .accept false [0], .pump, .pump] [] 2

/-- The end of the third opening removes the stream of the first. -/
theorem end_removes_another : (run step (start httpsStack) leftOver).cut = [(2, 0)] ∧
      ¬ Separate (run step (start httpsStack) leftOver) := by
  have hcut : (run step (start httpsStack) leftOver).cut = [(2, 0)] := by decide +kernel
  refine ⟨hcut, fun h => ?_⟩
  have hsame := h.cut (2, 0) (hcut ▸ mem_cons_self)
  cases hsame

end Terminators

end Boreas.L4
