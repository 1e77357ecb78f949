import Boreas.Relay
import Boreas.Text

/-! # The driver behind the C interface

`drive`, `ask` and the calls of ffi/tunnel.rs.  One task waits for the tunnel's next event or for a command; a run is
an interleaving of the task with the host.  By `settles_run` the driver answers every queued command on its own, with
the host reading nothing, when it picks events up only while their channel has room.  It does not look for room first. -/

namespace Boreas.Ffi

open List Runs

def eventDepth : ℕ := 64

inductive Command
  | reload (lists : List Text)
  | authority
  | shutdown

inductive Answer (Event Material : Type)
  | reload (event : Event)
  | authority (material : Option Material)
  | shutdown (stopped : Bool)

/-- Where `drive` waits: in its `select!`, for room in the event channel, or for the tunnel to stop, with the thread
that asked for it. -/
inductive Phase (Event : Type)
  | selecting
  | sending (event : Event)
  | stopping (asked : Option ℕ)
  | ended

/-- The driver task and its two channels.  `reload` and `authority` are the tunnel's answers to these commands, `held`
says that the host has not freed its handle, and `answers` are what the calls of `ask` returned so far, by thread:
`none` when the driver is gone. -/
structure Driver (Event Material : Type) where
  reload : List Text → Event
  authority : Option Material
  phase : Phase Event
  commands : Channel (ℕ × Command)
  events : Channel Event
  held : Bool
  answers : List (ℕ × Option (Answer Event Material))

/-- A step of the task: the tunnel's next event comes first, a command comes first, the event is sent, the tunnel has
stopped.  Or one of a host thread: a command is sent, an event is read, the handle is freed. -/
inductive Step (Event : Type)
  | nextEvent (event : Option Event)
  | recv
  | send
  | stop (stopped : Bool)
  | ask (thread : ℕ) (command : Command)
  | read
  | free

/-- The steps that the task takes alone: no host thread takes part, and the tunnel has no new event. -/
def Step.own {Event : Type} : Step Event → Bool
  | .recv => true
  | .send => true
  | .stop _ => true
  | _ => false

namespace Driver

variable {Event Material : Type}

def launch (reload : List Text → Event) (authority : Option Material) : Driver Event Material where
  reload := reload
  authority := authority
  phase := .selecting
  commands := ⟨eventDepth, []⟩
  events := ⟨eventDepth, []⟩
  held := true
  answers := []

variable (d : Driver Event Material)

def answer (thread : ℕ) (reply : Option (Answer Event Material)) : Driver Event Material :=
  { d with answers := d.answers ++ [(thread, reply)] }

def take : List (ℕ × Command) → Driver Event Material
  | (thread, .reload lists) :: rest =>
    { d with commands := { d.commands with queue := rest } }.answer thread (some (.reload (d.reload lists)))
  | (thread, .authority) :: rest =>
    { d with commands := { d.commands with queue := rest } }.answer thread (some (.authority d.authority))
  | (thread, .shutdown) :: rest =>
    { d with commands := { d.commands with queue := rest }, phase := .stopping (some thread) }
  | [] => { d with phase := .stopping none }

def sent (event : Event) : Driver Event Material :=
  if d.held then
    { d with events := { d.events with queue := d.events.queue ++ [event] }, phase := .selecting }
  else { d with phase := .stopping none }

/-- The task returns. The receiver goes with it, and with the queue the reply channels of the commands in it. -/
def ends (asked : Option ℕ) (stopped : Bool) : Driver Event Material :=
  { d with
    phase := .ended
    commands := { d.commands with queue := [] }
    answers := d.answers ++ asked.toList.map (fun thread => (thread, some (.shutdown stopped))) ++
      d.commands.queue.map fun c => (c.1, none) }

def step : Step Event → Driver Event Material
  | .nextEvent (some event) => { d with phase := .sending event }
  | .nextEvent none => { d with phase := .stopping none }
  | .recv => d.take d.commands.queue
  | .send => match d.phase with
    | .sending event => d.sent event
    | _ => d
  | .stop stopped => match d.phase with
    | .stopping asked => d.ends asked stopped
    | _ => d
  | .ask thread command => match d.phase with
    | .ended => d.answer thread none
    | _ => { d with commands := { d.commands with queue := d.commands.queue ++ [(thread, command)] } }
  | .read => { d with events := { d.events with queue := d.events.queue.tail } }
  | .free => { d with held := false, events := { d.events with queue := [] } }

/-- There is room in the event channel, or nobody who could read it. -/
def roomy : Bool := d.events.queue.length < d.events.capacity || !d.held

/-- Whether a step can be taken.  The receiver of the commands is woken by a command and by the last sender's drop. -/
def enabled : Step Event → Bool
  | .nextEvent _ => match d.phase with
    | .selecting => true
    | _ => false
  | .recv => match d.phase with
    | .selecting => !d.commands.queue.isEmpty || !d.held
    | _ => false
  | .send => match d.phase with
    | .sending _ => d.roomy
    | _ => false
  | .stop _ => match d.phase with
    | .stopping _ => true
    | _ => false
  | .ask _ _ => d.held && match d.phase with
    | .ended => true
    | _ => d.commands.queue.length < d.commands.capacity
  | .read => d.held && !d.events.queue.isEmpty
  | .free => d.held

def Enabled (s : Step Event) : Prop := d.enabled s = true

instance (d : Driver Event Material) (s : Step Event) : Decidable (d.Enabled s) :=
  inferInstanceAs (Decidable (_ = _))

/-! ### Settling the queued commands -/

def waiting : List ℕ :=
  (match d.phase with
    | .stopping asked => asked.toList
    | _ => []) ++ d.commands.queue.map Prod.fst

/-- The task has not begun to stop, and the host has its handle. -/
def listening : Prop :=
  d.held = true ∧ ∀ asked, d.phase ≠ .stopping asked

/-- Every command queued in `d` has its answer in `d'`, in order; the first one is a reply of the driver when `d` is
listening. -/
structure Settles (d d' : Driver Event Material) : Prop where
  queue : d'.commands.queue = []
  answers : ∃ given, d'.answers = d.answers ++ given ∧ given.map Prod.fst = d.waiting ∧
    (d.listening → ∀ thread ∈ d.waiting.head?, ∃ reply, given.head? = some (thread, some reply))

def CanSettle : Prop :=
  ∃ steps : List (Step Event), (∀ s ∈ steps, s.own = true) ∧ Along step Enabled d steps ∧
    Settles d (run step d steps)

variable {d : Driver Event Material}

theorem canSettle_of_stopping (h : d.phase = .stopping asked) : d.CanSettle := by
  refine ⟨[.stop true], by simp [Step.own], ⟨by simp [Enabled, enabled, h], trivial⟩, ?_, ?_⟩
  · simp [step, h, ends]
  · refine ⟨asked.toList.map (fun thread => (thread, some (.shutdown true))) ++ d.commands.queue.map (fun c => (c.1, none)),
      by simp [step, h, ends], by simp [waiting, h, Function.comp_def], fun hlis => ?_⟩
    exact absurd h (hlis.2 asked)

theorem canSettle_of_recv (hphase : d.phase = .selecting)
    (hqueue : d.commands.queue = (thread, command) :: rest) (hphase' : (d.step .recv).phase = .selecting)
    (hqueue' : (d.step .recv).commands.queue = rest)
    (hreply : (d.step .recv).answers = d.answers ++ [(thread, some reply)]) (hrest : (d.step .recv).CanSettle) :
    d.CanSettle := by
  obtain ⟨steps, hown, halong, hset⟩ := hrest
  obtain ⟨given, hgiven, hthreads, -⟩ := hset.answers
  refine ⟨.recv :: steps, ?_, ⟨by simp [Enabled, enabled, hphase, hqueue], halong⟩, hset.queue, ?_⟩
  · intro s hs
    cases mem_cons.mp hs with
    | inl hs => rw [hs]; rfl
    | inr hs => exact hown s hs
  · refine ⟨(thread, some reply) :: given, ?_, ?_, fun _ thread' hthr' => ?_⟩
    · rw [run_cons, hgiven, hreply, append_assoc, singleton_append]
    · simp [hthreads, waiting, hphase, hphase', hqueue, hqueue']
    · simp [waiting, hphase, hqueue] at hthr'
      exact ⟨reply, by simp [hthr']⟩

theorem canSettle_of_selecting (h : d.phase = .selecting) : d.CanSettle := by
  -- The induction is on the queued commands, taken one after the other until one of them ends the driver.
  generalize hqueue : d.commands.queue = queue
  induction queue generalizing d with
  | nil =>
    refine ⟨[], by simp, trivial, hqueue, [], by simp, by simp [waiting, h, hqueue], fun _ thread hthr => ?_⟩
    simp [waiting, h, hqueue] at hthr
  | cons c rest ih =>
    obtain ⟨thread, command⟩ := c
    have hstep : d.step .recv = d.take ((thread, command) :: rest) := by rw [step, hqueue]
    cases command with
    | reload lists | authority =>
      have hphase : (d.step .recv).phase = .selecting := by rw [hstep]; exact h
      have hrest : (d.step .recv).commands.queue = rest := by rw [hstep]; rfl
      exact canSettle_of_recv h hqueue hphase hrest (by rw [hstep]; rfl) (ih hphase hrest)
    | shutdown =>
      have hphase : (d.step .recv).phase = .stopping (some thread) := by rw [hstep]; rfl
      refine ⟨[.recv, .stop true], by simp [Step.own], ?_, ?_, ?_⟩
      · exact ⟨by simp [Enabled, enabled, h, hqueue], by simp [Enabled, enabled, hphase], trivial⟩
      · simp [step, hqueue, take, ends]
      · refine ⟨(thread, some (.shutdown true)) :: rest.map (fun c => (c.1, none)), ?_, ?_, ?_⟩
        · simp [step, hqueue, take, ends]
        · simp [waiting, h, hqueue]
        · intro _ thread' hthr'
          simp [waiting, h, hqueue] at hthr'
          exact ⟨_, by rw [hthr']; rfl⟩

theorem canSettle_of_sending (h : d.phase = .sending event) (hroomy : d.roomy = true) : d.CanSettle := by
  have hstep : d.step .send = d.sent event := by rw [step, h]
  have hkept : (d.step .send).commands = d.commands ∧ (d.step .send).answers = d.answers := by
    rw [hstep, sent]
    split_ifs <;> exact ⟨rfl, rfl⟩
  have hnext : (d.step .send).CanSettle ∧ (d.step .send).waiting = d.waiting ∧
      (d.listening → (d.step .send).listening) := by
    cases hheld : d.held with
    | true =>
      have hphase : (d.step .send).phase = .selecting := by rw [hstep, sent, if_pos hheld]
      refine ⟨canSettle_of_selecting hphase, by simp [waiting, hphase, h, hkept.1], fun _ => ⟨?_, ?_⟩⟩
      · rw [hstep, sent, if_pos hheld]
        exact hheld
      · rw [hphase]
        exact nofun
    | false =>
      have hphase : (d.step .send).phase = .stopping none := by rw [hstep, sent, if_neg (by simp [hheld])]
      refine ⟨canSettle_of_stopping hphase, by simp [waiting, hphase, h, hkept.1], fun hlis => ?_⟩
      exact absurd (hheld.symm.trans hlis.1) (by decide)
  obtain ⟨⟨steps, hown, halong, hset⟩, hwait, hlis⟩ := hnext
  obtain ⟨given, hgiven, hthreads, hfirst⟩ := hset.answers
  refine ⟨.send :: steps, ?_, ⟨by simp [Enabled, enabled, h, hroomy], halong⟩, hset.queue, given, ?_, ?_, ?_⟩
  · intro s hs
    cases mem_cons.mp hs with
    | inl hs => rw [hs]; rfl
    | inr hs => exact hown s hs
  · rw [run_cons, hgiven, hkept.2]
  · rw [hthreads, hwait]
  · intro hd
    rw [← hwait]
    exact hfirst (hlis hd)

/-! ### Runs -/

def Prompt (d : Driver Event Material) : Step Event → Prop
  | .nextEvent (some _) => d.roomy = true
  | _ => True

instance (d : Driver Event Material) : ∀ s, Decidable (d.Prompt s)
  | .nextEvent (some _) => inferInstanceAs (Decidable (_ = _))
  | .nextEvent none | .recv | .send | .stop _ | .ask _ _ | .read | .free => isTrue trivial

/-- The driver waits for room only where there is some, and an ended driver has no queue. -/
structure Unblocked (d : Driver Event Material) : Prop where
  sending : ∀ event, d.phase = .sending event → d.roomy = true
  ended : d.phase = .ended → d.commands.queue = []

theorem Unblocked.canSettle (h : d.Unblocked) : d.CanSettle := by
  cases hphase : d.phase with
  | selecting => exact canSettle_of_selecting hphase
  | sending event => exact canSettle_of_sending hphase (h.sending event hphase)
  | stopping asked => exact canSettle_of_stopping hphase
  | ended =>
    have hqueue := h.ended hphase
    refine ⟨[], by simp, trivial, hqueue, [], by simp, by simp [waiting, hphase, hqueue], fun _ thread hthr => ?_⟩
    simp [waiting, hphase, hqueue] at hthr

theorem unblocked_of_phase (hsending : ∀ event, d.phase ≠ .sending event) (hended : d.phase ≠ .ended) : d.Unblocked :=
  ⟨fun event h => absurd h (hsending event), fun h => absurd h hended⟩

theorem phase_take (d : Driver Event Material) (queue : List (ℕ × Command)) :
    (d.take queue).phase = d.phase ∨ ∃ asked, (d.take queue).phase = .stopping asked := by
  unfold take
  split
  · exact .inl rfl
  · exact .inl rfl
  · exact .inr ⟨_, rfl⟩
  · exact .inr ⟨_, rfl⟩

theorem ask_kept (d : Driver Event Material) (thread : ℕ) (command : Command) :
    (d.step (.ask thread command)).phase = d.phase ∧ (d.step (.ask thread command)).roomy = d.roomy ∧
      (d.phase = .ended → (d.step (.ask thread command)).commands.queue = d.commands.queue) := by
  dsimp only [step]
  split
  · exact ⟨rfl, rfl, fun _ => rfl⟩
  · rename_i hphase
    exact ⟨rfl, rfl, fun hended => absurd hended hphase⟩

/-- **Step lemma**. -/
theorem unblocked_step (h : d.Unblocked) (hen : d.Enabled s) (hprompt : d.Prompt s) : (d.step s).Unblocked := by
  cases s with
  | nextEvent event =>
    cases event with
    | none => exact unblocked_of_phase nofun nofun
    | some event => exact ⟨fun _ _ => hprompt, nofun⟩
  | recv =>
    have hphase : d.phase = .selecting := by
      unfold Enabled enabled at hen
      cases hphase : d.phase with
      | selecting => rfl
      | _ => simp [hphase] at hen
    obtain hsame | ⟨asked, hstop⟩ := d.phase_take d.commands.queue
    · have hselecting : (d.step .recv).phase = .selecting := hsame.trans hphase
      exact unblocked_of_phase (by rw [hselecting]; exact nofun) (by rw [hselecting]; exact nofun)
    · have hstop' : (d.step .recv).phase = .stopping asked := hstop
      exact unblocked_of_phase (by rw [hstop']; exact nofun) (by rw [hstop']; exact nofun)
  | send =>
    dsimp only [step]
    cases hphase : d.phase with
    | sending event =>
      dsimp only [sent]
      split_ifs
      · exact unblocked_of_phase nofun nofun
      · exact unblocked_of_phase nofun nofun
    | _ => exact h
  | stop stopped =>
    dsimp only [step]
    cases hphase : d.phase with
    | stopping asked => exact ⟨nofun, fun _ => rfl⟩
    | _ => exact h
  | ask thread command =>
    obtain ⟨hphase, hroomy, hqueue⟩ := d.ask_kept thread command
    refine ⟨fun event hsending => ?_, fun hended => ?_⟩
    · rw [hroomy]
      exact h.sending event (hphase.symm.trans hsending)
    · have hended' := hphase.symm.trans hended
      rw [hqueue hended']
      exact h.ended hended'
  | read =>
    refine ⟨fun event hphase => ?_, h.ended⟩
    have hroomy := h.sending event hphase
    unfold roomy at hroomy ⊢
    simp only [step, length_tail, Bool.or_eq_true, decide_eq_true_eq] at hroomy ⊢
    exact hroomy.imp_left fun hlt => by omega
  | free => exact ⟨fun _ _ => by simp [step, roomy], h.ended⟩

/-- **Commands can always be taken** while the host keeps up with the events: in every run of the driver from its
launch, of all its interleavings with the host, in which it picks events up only while their channel has room, the
driver can answer all queued commands from the state reached with the host reading no event. -/
theorem settles_run (reload : List Text → Event) (authority : Option Material) (steps : List (Step Event))
    (henabled : Along step (fun d s => d.Enabled s ∧ d.Prompt s) (launch reload authority) steps) :
    (run step (launch reload authority) steps).CanSettle := by
  have hrun := run_invariant (I := Unblocked) (fun d s h hG => unblocked_step h hG.1 hG.2) steps
    (launch reload authority) (unblocked_of_phase nofun nofun) henabled
  exact hrun.canSettle

def asking : List (Step ℕ) :=
  [.nextEvent (some 1), .send, .ask 7 (.reload []), .nextEvent (some 2), .ask 8 .shutdown]

theorem settles_asking : Along step (fun d s => d.Enabled s ∧ d.Prompt s) (launch (fun _ => 0) (some ())) asking ∧
      (run step (launch (fun _ => 0) (some ())) asking).waiting = [7, 8] ∧
      (run step (launch (fun _ => 0) (some ())) asking).CanSettle :=
  have henabled : Along step (fun d s => d.Enabled s ∧ d.Prompt s) (launch (fun _ => 0) (some ())) asking := by
    decide
  ⟨henabled, by decide, settles_run (fun _ => 0) (some ()) asking henabled⟩

/-- The host reads nothing: the event channel is full, the driver holds one event more, and a shutdown is queued. -/
def unread : List (Step ℕ) :=
  (List.replicate eventDepth [.nextEvent (some 1), .send]).flatten ++ [.nextEvent (some 1), .ask 7 .shutdown]

/-- **A command behind unread events is not taken**: the run is one of the driver and its host, a shutdown is queued
in the state reached, and no step of the driver is possible there, be it alone or with another event of the tunnel. -/
theorem blocked_behind_events : Along step Enabled (launch (fun _ => 0) (some ())) unread ∧
      (run step (launch (fun _ => 0) (some ())) unread).waiting = [7] ∧
      (∀ event, ¬ (run step (launch (fun _ => 0) (some ())) unread).Enabled (.nextEvent event)) ∧
      ¬ (run step (launch (fun _ => 0) (some ())) unread).CanSettle := by
  have hphase : (run step (launch (fun _ => 0) (some ())) unread).phase = .sending 1 := by rfl
  have hroomy : (run step (launch (fun _ => 0) (some ())) unread).roomy = false := by decide +kernel
  have hqueue : (run step (launch (fun _ => 0) (some ())) unread).commands.queue ≠ [] := by
    intro hnil
    have hlen : (run step (launch (fun _ => 0) (some ())) unread).commands.queue.length = 1 := by decide +kernel
    rw [hnil] at hlen
    cases hlen
  refine ⟨by decide +kernel, by decide +kernel, fun event => by simp [Enabled, enabled, hphase], ?_⟩
  rintro ⟨steps, hown, halong, hset⟩
  rcases steps with _ | ⟨s, steps⟩
  · exact hqueue hset.queue
  have hs := hown s mem_cons_self
  have hen := halong.1
  cases s with
  | recv => simp [Enabled, enabled, hphase] at hen
  | send => simp [Enabled, enabled, hphase, hroomy] at hen
  | stop stopped => simp [Enabled, enabled, hphase] at hen
  | _ => cases hs

end Driver
end Boreas.Ffi
