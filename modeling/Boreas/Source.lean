import Boreas.Relay

/-! # Datagram sources

The abstract side of `DatagramSource` (egress/mod.rs).  `Carries` says, of the arrivals alone, which datagrams they
carry, and `Whole` what the trait promises of a result.  A source with an `Invariant` keeps the promise in every run
that meets its conditions (`Invariant.whole_results`), and then the relay hands the client whole datagrams only
(`Whole.relayed`). -/

namespace Boreas

/-- A datagram source: `turn` is one turn of `recv_from` with a buffer of a given size, and gives nothing while it
waits or goes on with its loop. `Choice` is what the runtime decides in it: a ready branch, a clock reading. -/
structure Source where
  State : Type
  Arrival : Type
  Choice : Type
  new : State
  arrive : State → Arrival → State
  turn : State → Choice → ℕ → State × Option Received
  Carries : List Arrival → Bytes → Target → Prop

namespace Source

variable (M : Source)

inductive Event
  | arrives (arrival : M.Arrival)
  | turns (choice : M.Choice) (size : ℕ)

/-- One result of `recv_from`, with the size of the buffer and what had arrived before. -/
structure Result where
  arrived : List M.Arrival
  size : ℕ
  received : Received

/-- A source in use, with what has arrived and what it returned so far. -/
structure Used where
  state : M.State
  arrived : List M.Arrival
  results : List M.Result

variable {M}

def Used.new : Used M := ⟨M.new, [], []⟩

def step (u : Used M) : M.Event → Used M
  | .arrives arrival => { u with state := M.arrive u.state arrival, arrived := u.arrived ++ [arrival] }
  | .turns choice size =>
    let (state, received) := M.turn u.state choice size
    { u with
      state := state
      results := u.results ++ (received.map fun received => ⟨u.arrived, size, received⟩).toList }

/-- The promise of `recv_from`: one datagram copied whole or refused for its length, or an error of another kind. -/
def Whole (arrived : List M.Arrival) (size : ℕ) (received : Received) : Prop :=
  (∃ payload origin, M.Carries arrived payload origin ∧ received = copyWhole size payload origin) ∨
    ∃ error, received = .error error ∧ ∀ required, error ≠ .datagramTooLarge required

def Relayed (arrived : List M.Arrival) (received : Received) : Prop :=
  ∀ (s : Served) (client : L3.InternalEndpoint),
    (s.onReceived client received).1.inbound.queue = s.inbound.queue ∨
      ∃ payload peer, M.Carries arrived payload (.ip peer) ∧
        (s.onReceived client received).1.inbound.queue = s.inbound.queue ++ [⟨client, peer.endpoint, payload⟩]

variable {arrived : List M.Arrival} {size : ℕ}

theorem Whole.relayed (h : Whole arrived size received) : Relayed arrived received := by
  intro s client
  rcases s.onReceived_queue client received with hsame | ⟨payload, peer, hok, hqueue⟩
  · exact .inl hsame
  refine .inr ⟨payload, peer, ?_, hqueue⟩
  rcases h with ⟨payload', origin, hcar, hcop⟩ | ⟨error, herror, -⟩
  · rw [hok] at hcop
    unfold copyWhole at hcop
    split_ifs at hcop
    cases hcop
    exact hcar
  · rw [hok] at herror
    cases herror

/-- What a run has to meet: a condition on each arrival and on each turn, in the state before it. -/
structure Conditions (M : Source) where
  arrives : M.State → M.Arrival → Prop
  turns : M.State → ℕ → Prop

def Conditions.none : Conditions M := ⟨fun _ _ => True, fun _ _ => True⟩

def Conditions.Met (C : Conditions M) (u : Used M) : M.Event → Prop
  | .arrives arrival => C.arrives u.state arrival
  | .turns _ size => C.turns u.state size

structure Invariant (M : Source) (C : Conditions M) where
  Inv : List M.Arrival → M.State → Prop
  new : Inv [] M.new
  arrive : ∀ {arrived s a}, Inv arrived s → C.arrives s a → Inv (arrived ++ [a]) (M.arrive s a)
  turn : ∀ {arrived s c size}, Inv arrived s → Inv arrived (M.turn s c size).1
  whole : ∀ {arrived s c size r}, Inv arrived s → C.turns s size → (M.turn s c size).2 = some r →
    Whole arrived size r

/-! ### Queued replies -/

/-- The end of a source that reads from a queue of replies: the next one is copied whole or refused, and an empty
queue that no task can fill gives the error `gone`. -/
def recvQueued (gone : EgressError) (queue : List (Bytes × Target)) (closed : Bool) (size : ℕ) :
    List (Bytes × Target) × Option Received :=
  match queue with
  | [] => ([], if closed then some (.error gone) else none)
  | (payload, origin) :: rest => (rest, some (copyWhole size payload origin))

variable {queue : List (Bytes × Target)} {gone : EgressError}

theorem mem_recvQueued (h : reply ∈ (recvQueued gone queue closed size).1) : reply ∈ queue := by
  cases queue with
  | nil => exact h
  | cons head rest => exact List.mem_cons_of_mem head h

theorem whole_recvQueued (hgone : ∀ required, gone ≠ .datagramTooLarge required)
    (hcar : ∀ reply ∈ queue, M.Carries arrived reply.1 reply.2)
    (h : (recvQueued gone queue closed size).2 = some r) : Whole arrived size r := by
  rcases queue with _ | ⟨reply, rest⟩
  · dsimp only [recvQueued] at h
    split_ifs at h
    cases h
    exact .inr ⟨gone, rfl, hgone⟩
  cases h
  exact .inl ⟨reply.1, reply.2, hcar reply List.mem_cons_self, rfl⟩

/-! ### Runs -/

/-- **Every result is whole**, in every run that meets the conditions. -/
theorem Invariant.whole_results (I : Invariant M C) (es : List M.Event) (hmet : Runs.Along step C.Met Used.new es) :
    ∀ res ∈ (Runs.run step (Used.new : Used M) es).results, Whole res.arrived res.size res.received := by
  refine (Runs.run_invariant (I := fun u : Used M => I.Inv u.arrived u.state ∧
    ∀ res ∈ u.results, Whole res.arrived res.size res.received) (fun u e hu hmet => ?_) es _
    ⟨I.new, by simp [Used.new]⟩ hmet).2
  cases e with
  | arrives a => exact ⟨I.arrive hu.1 hmet, hu.2⟩
  | turns c size =>
    refine ⟨I.turn hu.1, fun res hres => ?_⟩
    rcases List.mem_append.mp hres with hres | hres
    · exact hu.2 res hres
    · obtain ⟨r, hr, rfl⟩ := Option.map_eq_some_iff.mp (Option.mem_toList.mp hres)
      exact I.whole hu.1 hmet hr

end Source

end Boreas
