import Boreas.Source

/-! # The loop of an association

`serve_association` (l4/relay.rs) over any datagram source.  Each step is one branch of its `select!`, or what another
task or the network does in between.  For a source that is `Ordered` the ledger of a run has an entry for every item
that was taken, in order, and every datagram of the client is sent or still queued as long as the loop goes on
(`ledger_run`). -/

namespace Boreas

open L3 List Option Runs

/-- What waits in a source, in order: what an arrival adds to it, and which item a turn takes. -/
structure Source.Ordered (M : Source) where
  Item : Type
  waiting : M.State → List Item
  added : M.State → M.Arrival → List Item
  next : M.State → M.Choice → Option Item
  waiting_new : waiting M.new = []
  waiting_arrive : ∀ s a, waiting (M.arrive s a) = waiting s ++ added s a
  waiting_turn : ∀ s c size, waiting s = (next s c).toList ++ waiting (M.turn s c size).1

namespace Source.Ordered

variable {M : Source} {O : M.Ordered}

/-- Why a loop has ended: for another task, the clock or the client's queue, or for a result of the source. -/
inductive Ending (O : M.Ordered)
  | stopped
  | failed (item : Option O.Item)

/-- One item that a turn took: the source, the runtime's choice and the shared parts before it, and what the loop made
of the result, with whether it goes on. -/
structure Taken (O : M.Ordered) where
  item : O.Item
  source : M.State
  choice : M.Choice
  served : Served
  after : Served × Bool

/-- `serve_association` for one client. `size` is the length of its receive buffer; `accepted`, `sent`, `added` and
`taken` record what was queued by the relay, sent to the proxy, added to the source and taken from it. -/
structure Serving (O : M.Ordered) where
  client : InternalEndpoint
  size : ℕ
  source : M.State
  served : Served
  outbound : Channel Outbound
  ending : Option (Ending O)
  accepted : List Outbound
  sent : List Outbound
  added : List O.Item
  taken : List (Taken O)

/-- What the network, the runtime and the other tasks do. -/
inductive Event (M : Source)
  | arrives (arrival : M.Arrival)
  | turns (choice : M.Choice)
  | queues (datagram : Outbound)
  | sends (result : Except EgressError Unit)
  | shares (pool : BufferPool) (inbound : Channel Inbound)
  | stops

namespace Serving

def start (O : M.Ordered) (client : InternalEndpoint) (served : Served) (outbound : Channel Outbound) : Serving O where
  client := client
  size := served.bufferSize
  source := M.new
  served := served
  outbound := outbound
  ending := none
  accepted := outbound.queue
  sent := []
  added := []
  taken := []

def relay (client : InternalEndpoint) (served : Served) : Option Received → Served × Bool
  | none => (served, true)
  | some received => served.onReceived client received

def finish (s : Serving O) (ending : Ending O) : Serving O :=
  { s with ending := some ending, outbound := { s.outbound with queue := [] } }

def turn (s : Serving O) (choice : M.Choice) : Serving O :=
  let after := relay s.client s.served (M.turn s.source choice s.size).2
  let entry := (O.next s.source choice).map fun item => (⟨item, s.source, choice, s.served, after⟩ : Taken O)
  let next : Serving O :=
    { s with
      source := (M.turn s.source choice s.size).1
      served := after.1
      taken := s.taken ++ entry.toList }
  if after.2 then next else next.finish (.failed (O.next s.source choice))

def step (s : Serving O) (e : Event M) : Serving O :=
  if s.ending.isSome then s
  else
    match e with
    | .arrives arrival =>
      { s with source := M.arrive s.source arrival, added := s.added ++ O.added s.source arrival }
    | .turns choice => s.turn choice
    -- A full queue drops the datagram, which the relay counts.
    | .queues datagram => match s.outbound.trySend datagram with
      | (outbound, true) => { s with outbound := outbound, accepted := s.accepted ++ [datagram] }
      | (_, false) => s
    | .sends result => match s.outbound.queue with
      | [] => s
      | datagram :: rest =>
        { s with
          outbound := { s.outbound with queue := rest }
          sent := s.sent ++ [datagram]
          served := (s.served.onOutbound (some result)).1 }
    | .shares pool inbound => { s with served := { s.served with pool := pool, inbound := inbound } }
    | .stops => s.finish .stopped

/-! ### The ledger -/

structure Recorded (client : InternalEndpoint) (size : ℕ) (t : Taken O) : Prop where
  next : O.next t.source t.choice = some t.item
  after : t.after = relay client t.served (M.turn t.source t.choice size).2

structure Ledger (s : Serving O) : Prop where
  inOrder : s.taken.map Taken.item ++ O.waiting s.source = s.added
  recorded : ∀ t ∈ s.taken, Recorded s.client s.size t
  unsent : s.ending = none → s.sent ++ s.outbound.queue = s.accepted
  failed : ∀ item, s.ending = some (.failed (some item)) → ∃ t ∈ s.taken, t.item = item ∧ t.after.2 = false

theorem ledger_start (O : M.Ordered) (client : InternalEndpoint) (served : Served) (outbound : Channel Outbound) :
    Ledger (start O client served outbound) :=
  ⟨by simp [start, O.waiting_new], by simp [start], fun _ => by simp [start], nofun⟩

theorem Ledger.turn {s : Serving O} (h : Ledger s) (hgoing : s.ending = none) (choice : M.Choice) :
    Ledger (s.turn choice) := by
  have horder := O.waiting_turn s.source choice s.size
  unfold Serving.turn
  dsimp only
  generalize hafter : relay s.client s.served (M.turn s.source choice s.size).2 = after
  generalize hentry : (O.next s.source choice).map (fun item => (⟨item, s.source, choice, s.served, after⟩ : Taken O)) =
    entry
  have hitem : ∀ t ∈ entry, Recorded s.client s.size t := by
    intro t ht
    rw [← hentry] at ht
    obtain ⟨item, hnext, rfl⟩ := map_eq_some_iff.mp ht
    exact ⟨hnext, hafter.symm⟩
  have hmap : entry.toList.map Taken.item = (O.next s.source choice).toList := by
    rw [← hentry]
    cases O.next s.source choice <;> rfl
  have hinOrder : (s.taken ++ entry.toList).map Taken.item ++ O.waiting (M.turn s.source choice s.size).1 = s.added := by
    rw [map_append, hmap, append_assoc, ← horder]
    exact h.inOrder
  have hrec : ∀ t ∈ s.taken ++ entry.toList, Recorded s.client s.size t := by
    intro t ht
    cases mem_append.mp ht with
    | inl ht => exact h.recorded t ht
    | inr ht => exact hitem t (mem_toList.mp ht)
  split_ifs with hon
  · exact ⟨hinOrder, hrec, h.unsent, fun item hended => absurd (hgoing.symm.trans hended) nofun⟩
  refine ⟨hinOrder, hrec, nofun, fun item hended => ?_⟩
  have hnext : O.next s.source choice = some item := by simpa [finish] using hended
  rw [hnext, map_some] at hentry
  refine ⟨_, mem_append_right _ (mem_toList.mpr hentry.symm), rfl, ?_⟩
  simpa using hon

/-- **Step lemma**. -/
theorem ledger_step {s : Serving O} (h : Ledger s) (e : Event M) : Ledger (s.step e) := by
  unfold step
  split_ifs with hended
  · exact h
  have hgoing : s.ending = none := not_isSome_iff_eq_none.mp hended
  cases e with
  | arrives arrival =>
    refine ⟨?_, h.recorded, h.unsent, h.failed⟩
    rw [O.waiting_arrive, ← append_assoc, h.inOrder]
  | turns choice => exact h.turn hgoing choice
  | queues dgram =>
    dsimp only [Channel.trySend]
    split_ifs with hroom
    · refine ⟨h.inOrder, h.recorded, fun _ => ?_, h.failed⟩
      rw [← append_assoc, h.unsent hgoing]
    · exact h
  | sends res =>
    rcases hqueue : s.outbound.queue with _ | ⟨dgram, rest⟩
    · exact h
    refine ⟨h.inOrder, h.recorded, fun _ => ?_, h.failed⟩
    dsimp only
    rw [append_assoc, singleton_append, ← hqueue]
    exact h.unsent hgoing
  | shares pool inbound => exact { h with }
  | stops => exact ⟨h.inOrder, h.recorded, nofun, nofun⟩

/-- **Run lemma**: every run keeps its ledger. -/
theorem ledger_run (client : InternalEndpoint) (served : Served) (outbound : Channel Outbound) (es : List (Event M)) :
    Ledger (run step (start O client served outbound) es) :=
  run_kept (I := Ledger) (fun _ e h => ledger_step h e) es _ (ledger_start O client served outbound)

theorem added_run {P : O.Item → Prop}
    (harrives : ∀ s a, G s (.arrives a) → ∀ item ∈ O.added s.source a, P item) (s : Serving O) (es : List (Event M))
    (hstart : ∀ item ∈ s.added, P item) (hG : Along step G s es) : ∀ item ∈ (run step s es).added, P item := by
  refine run_invariant (I := fun s : Serving O => ∀ item ∈ s.added, P item) (fun s e h hmet => ?_) es s hstart hG
  unfold step
  split_ifs
  · exact h
  cases e with
  | arrives a =>
    intro item hitem
    cases mem_append.mp hitem with
    | inl hitem => exact h item hitem
    | inr hitem => exact harrives s a hmet item hitem
  | turns choice =>
    dsimp only [Serving.turn]
    split_ifs <;> exact h
  | queues dgram =>
    dsimp only [Channel.trySend]
    split_ifs <;> exact h
  | sends res =>
    dsimp only
    split <;> exact h
  | shares pool inbound | stops => exact h

end Serving
end Source.Ordered
end Boreas
