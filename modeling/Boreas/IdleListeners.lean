import Boreas.LocalStack

/-! # Listeners nobody wants

A stack that terminates every port gives a SYN to a port without listeners a listener of its own.  A poll forgets the
SYNs whether or not the interface took them, and nothing gives back a listener in LISTEN.  `noIdle_iff`: no socket
listens on a port outside the configured ones exactly when each such SYN takes one of its listeners (`Takes`). -/

namespace Boreas.L4

open List Runs
open Smoltcp (vacant)

namespace LocalStack

/-! ### How many listeners wait -/

section Listening

variable {s s' : LocalStack}

theorem listening_congr (hlisn : s'.listeners = s.listeners)
    (hstate : ∀ l ∈ s.listeners, s'.stateOf l.handle = s.stateOf l.handle) (port : ℕ) :
    s'.listening port = s.listening port := by
  unfold listening
  rw [hlisn]
  congr 1
  refine filter_congr fun l hl => ?_
  rw [hstate l hl]

theorem Frame.listening (h : Frame touched s s')
    (hclear : ∀ l ∈ s.listeners, l.handle ∉ touched) (port : ℕ) : s'.listening port = s.listening port :=
  listening_congr h.listeners (fun l hl => by unfold stateOf; rw [h.others l.handle (hclear l hl)]) port

variable [Smoltcp]

theorem filter_addListener (h : Books [] s) (port : ℕ) : (s.listeners.filter fun l => l.port = port ∧
      ((s.sockets.insert (vacant s.sockets) o).lookup l.handle).map (·.socket.state) = some .listen) =
      s.listeners.filter fun l => l.port = port ∧ s.stateOf l.handle = some .listen := by
  have hvacant := vacant_notMem h
  refine filter_congr fun l hl => ?_
  have hne : l.handle ≠ vacant s.sockets := fun heq => by
    apply hvacant
    rw [← heq, append_assoc]
    exact mem_append_left _ (mem_map_of_mem hl)
  unfold stateOf
  rw [Table.lookup_insert_eq, if_neg hne]

theorem listening_addListener_le (h : Books [] s) (port other : ℕ) :
    (s.addListener port).1.listening other ≤ s.listening other + 1 := by
  unfold addListener
  split_ifs
  · exact Nat.le_succ _
  · exact Nat.le_succ _
  · unfold listening
    rw [filter_append, length_append]
    exact Nat.add_le_add (le_of_eq (congrArg List.length (filter_addListener h other))) (length_filter_le _ _)

theorem listening_addListener_of_ne (h : Books [] s) (hne : other ≠ port) :
    (s.addListener port).1.listening other = s.listening other := by
  unfold addListener
  split_ifs
  · rfl
  · rfl
  · unfold listening
    rw [filter_append, length_append, filter_cons_of_neg (by simp [hne.symm])]
    exact congrArg List.length (filter_addListener h other)

theorem listening_replenish (h : Books [] s) {ports : List ℕ} (hnot : other ∉ ports) :
    (replenish ports s).listening other = s.listening other :=
  (replenish_rel (R := fun s s' => Books [] s → Books [] s' ∧ s'.listening other = s.listening other)
    (fun _ h => ⟨h, rfl⟩)
    (fun h h' hs => ⟨(h' (h hs).1).1, (h' (h hs).1).2.trans (h hs).2⟩)
    (fun port hport _ h =>
      ⟨h.addListener port, listening_addListener_of_ne h fun heq => hnot (heq ▸ hport)⟩) s h).2

omit [Smoltcp] in
theorem listening_split (s : LocalStack) (port : ℕ) :
    ({ s with listeners := s.listeners.filter s.stays } : LocalStack).listening port = s.listening port := by
  unfold listening
  rw [filter_filter]
  congr 1
  refine filter_congr fun l _ => ?_
  by_cases hlis : s.stateOf l.handle = some .listen
  · have hstays : s.stays l = true := by
      unfold stays
      rw [hlis]
      rfl
    rw [hstays, Bool.and_true]
    rfl
  · have hstate : ({ s with listeners := s.listeners.filter s.stays } : LocalStack).stateOf l.handle =
        s.stateOf l.handle := rfl
    rw [hstate]
    simp [hlis]

omit [Smoltcp] in
theorem listening_harvest (h : Books [] s) : s.harvest.listening port = s.listening port := by
  have hconv : s.convertAll.listening port = s.listening port := by
    rw [← listening_split s port]
    refine (frame_foldl frame_convert s.converted _).listening (fun l hl hin => ?_) port
    exact h.split.handle_notMem hl (mem_append_left _ hin)
  rw [← hconv]
  refine (frame_foldl frame_reap _ _).listening (fun l hl hin => ?_) port
  exact h.convertAll.handle_notMem hl (mem_of_mem_filter hin)

omit [Smoltcp] in
theorem listening_transmit : (s.transmit handles).listening port = s.listening port := by
  have hlisn : (s.transmit handles).listeners = s.listeners := rfl
  refine listening_congr hlisn (fun l _ => ?_) port
  unfold stateOf transmit
  rw [Table.lookup_retain]
  cases s.sockets.lookup l.handle <;> rfl

omit [Smoltcp] in
theorem listening_put (h : Books [] s) {id : ℕ} (hserv : (s.entry id).Served e) :
    (s.put id e).listening port = s.listening port := by
  obtain hmem | hsame := put_of_served hserv
  · refine (frame_put s id e).listening (fun l hl hin => ?_) port
    rw [mem_singleton] at hin
    exact h.handle_notMem hl (hin ▸ hmem)
  · rw [hsame]

end Listening

/-! ### Runs of calls -/

section Runs

variable [Smoltcp]

inductive Call
  | push (packet : Bytes)
  | poll (events : ℕ → List Event)
  | transmit (handles : List ℕ)
  | accept
  | closed
  | recv (id count : ℕ)
  | send (id : ℕ) (bytes : Bytes)
  | close (id : ℕ)
  | abort (id : ℕ)

def call (s : LocalStack) : Call → LocalStack
  | .push packet => s.push packet
  | .poll events => s.poll events
  | .transmit handles => s.transmit handles
  | .accept => { s with accepted := s.accepted.tail }
  | .closed => { s with closed := s.closed.tail }
  | .recv id count => (s.recv id count).1
  | .send id bytes => (s.send id bytes).1
  | .close id => s.close id
  | .abort id => s.abort id

/-- In a poll, each SYN pushed since the last one to a port outside the configured ones takes a listener of its port. -/
def Takes (s : LocalStack) : Call → Prop
  | .poll events => ∀ port ∉ s.ports, (s.iface events).listening port ≤ s.listening port - s.wanted port
  | _ => True

def NoIdle (s : LocalStack) : Prop :=
  ∀ handle o, s.sockets.lookup handle = some o → o.socket.state = .listen →
    ∃ l ∈ s.listeners, l.handle = handle ∧ l.port ∈ s.ports

omit [Smoltcp] in
theorem Books.noIdle_iff_listening (h : Books [] s) : s.NoIdle ↔ ∀ port ∉ s.ports, s.listening port = 0 := by
  constructor
  · intro hidle port hport
    unfold listening
    rw [length_eq_zero_iff, filter_eq_nil_iff]
    intro l hl hwaits
    obtain ⟨rfl, hstate⟩ := of_decide_eq_true hwaits
    obtain ⟨o, ho, hlis⟩ := Option.map_eq_some_iff.mp hstate
    obtain ⟨l', hl', hhandle, hin⟩ := hidle l.handle o ho hlis
    have hnodup := h.nodup
    rw [append_assoc] at hnodup
    have hsame : l' = l := inj_on_of_nodup_map (nodup_append.mp hnodup).1 hl' hl hhandle
    exact hport (hsame ▸ hin)
  · intro hzero handle o ho hlis
    have hmem := (h.exists_iff handle).mp (by rw [ho]; rfl)
    rw [append_nil] at hmem
    obtain hmem | hmem := mem_append.mp hmem
    · obtain ⟨l, hl, rfl⟩ := mem_map.mp hmem
      refine ⟨l, hl, rfl, ?_⟩
      by_contra hport
      have hnone := hzero l.port hport
      unfold listening at hnone
      rw [length_eq_zero_iff, filter_eq_nil_iff] at hnone
      apply hnone l hl
      have hstate : s.stateOf l.handle = some .listen := by
        unfold stateOf
        rw [ho, Option.map_some, hlis]
      simp [hstate]
    · have hpast := h.past handle hmem o ho
      rw [hlis] at hpast
      cases hpast

theorem books_call (h : Books [] s) (c : Call) : Books [] (s.call c) := by
  cases c with
  | push pkt => exact h.push pkt
  | poll evs => exact h.poll evs
  | transmit handles => exact h.transmit handles
  | accept | closed => exact { h with }
  | recv id count => exact h.recv id count
  | send id bytes => exact h.send id bytes
  | close id => exact h.close id
  | abort id => exact h.abort id

theorem ports_addListener (s : LocalStack) (port : ℕ) :
    (s.addListener port).1.ports = s.ports ∧ (s.addListener port).1.wanted = s.wanted := by
  unfold addListener
  split_ifs <;> exact ⟨rfl, rfl⟩

theorem ports_replenish (ports : List ℕ) (s : LocalStack) :
    (replenish ports s).ports = s.ports ∧ (replenish ports s).wanted = s.wanted :=
  replenish_rel (R := fun s s' => s'.ports = s.ports ∧ s'.wanted = s.wanted) (fun _ => ⟨rfl, rfl⟩)
    (fun h h' => ⟨h'.1.trans h.1, h'.2.trans h.2⟩) (fun port _ s => ports_addListener s port) s

omit [Smoltcp] in
theorem ports_harvest (s : LocalStack) : s.harvest.ports = s.ports ∧ s.harvest.wanted = s.wanted := by
  have hconv := frame_foldl frame_convert s.converted { s with listeners := s.listeners.filter s.stays }
  have hreap := frame_foldl frame_reap s.convertAll.finished s.convertAll
  exact ⟨hreap.ports.trans hconv.ports, hreap.wanted.trans hconv.wanted⟩

theorem ports_poll (s : LocalStack) (evs : ℕ → List Event) :
    (s.poll evs).ports = s.ports ∧ (s.poll evs).wanted = fun _ => 0 := by
  obtain ⟨hports, hwant⟩ := ports_harvest (s.seen evs)
  obtain ⟨hports', hwant'⟩ := ports_replenish (s.seen evs).harvest.ports (s.seen evs).harvest
  exact ⟨hports'.trans hports, hwant'.trans hwant⟩

theorem listening_poll (h : Books [] s) (evs : ℕ → List Event) (hport : port ∉ s.ports) :
    (s.poll evs).listening port = (s.iface evs).listening port := by
  have hports : port ∉ (s.seen evs).harvest.ports := by
    rw [(ports_harvest _).1]
    exact hport
  have hreplenish := listening_replenish (h.seen evs).harvest hports
  rw [listening_harvest (h.seen evs)] at hreplenish
  exact hreplenish

structure Wanted (s : LocalStack) : Prop where
  books : Books [] s
  wanted : ∀ port ∉ s.ports, s.listening port ≤ s.wanted port

theorem Wanted.want (h : Wanted s) (port : ℕ) : ∀ other ∉ s.ports,
    (s.want port).listening other ≤ (s.want port).wanted other := by
  intro other hother
  have hbooks : Books [] (s.ask port) := ⟨h.books.nodup, h.books.exists_iff, h.books.ceiling, h.books.past⟩
  have hask : (s.ask port).listening other = s.listening other := rfl
  have hold := h.wanted other hother
  have hwant : s.wanted other ≤ (s.ask port).wanted other := by
    unfold ask
    dsimp only
    split_ifs with heq
    · rw [heq]
      exact Nat.le_succ _
    · exact le_rfl
  unfold LocalStack.want
  split_ifs with hshort
  · rw [(ports_addListener (s.ask port) port).2]
    by_cases heq : other = port
    · subst heq
      exact (listening_addListener_le hbooks other other).trans hshort
    · rw [listening_addListener_of_ne hbooks heq]
      exact hold.trans hwant
  · rw [hask]
    exact hold.trans hwant

theorem ports_push (s : LocalStack) : (s.push packet).ports = s.ports := by
  unfold push
  split
  · split_ifs
    · unfold want
      split_ifs
      · exact (ports_addListener _ _).1
      · rfl
    · rfl
  · rfl

omit [Smoltcp] in
theorem Wanted.put (h : Wanted s) {id : ℕ} (hserv : (s.entry id).Served e)
    (hbooks : Books [] (s.put id e)) : Wanted (s.put id e) := by
  refine ⟨hbooks, fun port hport => ?_⟩
  have hframe := frame_put s id e
  rw [listening_put h.books hserv, hframe.wanted]
  rw [hframe.ports] at hport
  exact h.wanted port hport

theorem Wanted.call (h : Wanted s) (htakes : s.Takes c) : Wanted (s.call c) := by
  refine ⟨books_call h.books c, ?_⟩
  cases c with
  | push pkt =>
    show ∀ port ∉ (s.push pkt).ports, (s.push pkt).listening port ≤ (s.push pkt).wanted port
    rw [ports_push]
    unfold push
    rcases synDestination pkt with _ | port
    · exact h.wanted
    dsimp only
    split_ifs
    · exact h.want port
    · exact h.wanted
  | poll evs =>
    intro port hport
    have hports : port ∉ s.ports := by
      rw [← (ports_poll s evs).1]
      exact hport
    have htaken := htakes port hports
    have hold := h.wanted port hports
    have hpoll := listening_poll h.books evs hports
    show (s.poll evs).listening port ≤ _
    omega
  | transmit handles =>
    intro port hport
    show (s.transmit handles).listening port ≤ s.wanted port
    rw [listening_transmit]
    exact h.wanted port hport
  | accept | closed => exact h.wanted
  | recv id count => exact (h.put (Entry.served_recv _ count) (h.books.recv id count)).wanted
  | send id bytes => exact (h.put (Entry.served_send _ bytes) (h.books.send id bytes)).wanted
  | close id => exact (h.put (Entry.served_close _) (h.books.close id)).wanted
  | abort id => exact (h.put (Entry.served_abort _) (h.books.abort id)).wanted

theorem listening_new {ports : List ℕ} {limits : TerminationLimits}
    (h : new ports limits = some s) : Wanted s.terminateEveryPort := by
  have hbooks := books_new h
  refine ⟨{ hbooks with }, fun port hport => ?_⟩
  unfold new at h
  split_ifs at h
  cases h
  have hports := (ports_replenish ports (bare ports limits)).1
  have hlis := listening_replenish (books_bare ports limits)
    (fun hmem => hport (by exact hports ▸ hmem) : port ∉ ports)
  exact le_of_eq_of_le hlis (Nat.zero_le _)

/-- **No idle listener is left exactly** along the runs in which every SYN to a port without listeners of its own takes
the one it was given. -/
theorem noIdle_iff {ports : List ℕ} {limits : TerminationLimits} {s : LocalStack}
    (h : new ports limits = some s) (calls : List Call) : (∀ front events, front ++ [.poll events] <+: calls →
      NoIdle (run call s.terminateEveryPort (front ++ [.poll events]))) ↔
      Along call Takes s.terminateEveryPort calls := by
  have hstart := listening_new h
  constructor
  · intro hidle
    induction calls using List.reverseRecOn with
    | nil => trivial
    | append_singleton calls c ih =>
      refine (along_snoc _ _ _).mpr ⟨ih fun front events hfront =>
        hidle front events (hfront.trans (prefix_append calls [c])), ?_⟩
      cases c with
      | poll events =>
        intro port hport
        have hbooks := run_kept (I := Books []) (fun s c h => books_call h c) calls _ hstart.books
        have hidle := hidle calls events (prefix_refl _)
        rw [run_snoc] at hidle
        have hlast : ((run call s.terminateEveryPort calls).poll events).NoIdle := hidle
        rw [(hbooks.poll events).noIdle_iff_listening, (ports_poll _ events).1] at hlast
        have hnone := hlast port hport
        rw [listening_poll hbooks events hport] at hnone
        omega
      | _ => trivial
  · rintro halong front events ⟨rest, rfl⟩
    have hwant := run_invariant (I := Wanted) (G := Takes) (fun s c h htakes => h.call htakes)
      (front ++ [.poll events]) _ hstart halong.left
    refine hwant.books.noIdle_iff_listening.mpr fun port hport => ?_
    have hle := hwant.wanted port hport
    rw [run_snoc] at hle ⊢
    rw [show (call (run call s.terminateEveryPort front) (.poll events)).wanted = fun _ => 0 from
      (ports_poll _ events).2] at hle
    exact Nat.le_zero.mp hle

end Runs

def twoSockets : TerminationLimits := ⟨2, 1, 4096, Nat.succ_pos 1, Nat.succ_pos 0, Nat.succ_pos 4095⟩

def synTo (port : ℕ) : Bytes :=
  [0x45] ++ List.replicate 8 0 ++ [6] ++ List.replicate 12 0 ++ [UInt8.ofNat (port / 256), UInt8.ofNat (port % 256)] ++
    List.replicate 9 0 ++ [2]

def takenSyn : List Call := [.push (synTo 80), .poll fun _ => [.syn]]

theorem noIdle_takenSyn : new [] twoSockets = some (bare [] twoSockets) ∧
    ∀ front events, front ++ [.poll events] <+: takenSyn →
      NoIdle (run call (bare [] twoSockets).terminateEveryPort (front ++ [.poll events])) := by
  have hnew : new [] twoSockets = some (bare [] twoSockets) := rfl
  refine ⟨hnew, (noIdle_iff hnew takenSyn).mpr ⟨trivial, fun port _ => ?_, trivial⟩⟩
  have hlisn : (((bare [] twoSockets).terminateEveryPort.call (.push (synTo 80))).iface fun _ => [.syn]).listeners =
      [⟨0, 80⟩] := by decide
  have hstate : (((bare [] twoSockets).terminateEveryPort.call (.push (synTo 80))).iface fun _ => [.syn]).stateOf 0 =
      some .synReceived := by decide
  unfold listening
  rw [hlisn]
  simp [hstate]

def ignoredSyns : List Call :=
  [.push (synTo 80), .poll fun _ => [], .push (synTo 81), .poll fun _ => []]

/-- Their listeners stay, and a third SYN finds the ceiling reached. -/
theorem ignored_syns_exhaust : ¬ NoIdle (run call (bare [] twoSockets).terminateEveryPort ignoredSyns) ∧
    (run call (bare [] twoSockets).terminateEveryPort ignoredSyns).listeners = [⟨0, 80⟩, ⟨1, 81⟩] ∧
    (run call (bare [] twoSockets).terminateEveryPort (ignoredSyns ++ [.push (synTo 82)])).listening 82 = 0 := by
  refine ⟨fun h => ?_, by decide, by decide⟩
  have hsock : ((run call (bare [] twoSockets).terminateEveryPort ignoredSyns).sockets.lookup 0) =
      some ⟨.listening 4096, 0, false⟩ := by decide
  obtain ⟨l, -, -, hport⟩ := h 0 _ hsock rfl
  cases hport

end LocalStack

end Boreas.L4
