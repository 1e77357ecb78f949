import Boreas.ShadowsocksUdp

/-! # Packets of many server sessions

`PacketSource` remembers the replay windows of two server sessions.  A third one takes the place of the older, and a
packet of a session that is no longer remembered meets a fresh window.

`delivered_once_run`: no pair of server session and packet id is delivered twice, in every run in which a session that
is not remembered is a new one and no window has forgotten the id that it is asked for. -/

namespace Boreas.Shadowsocks

open List Window
open Direct (Arrived)
open Socks5 (maxUdpPayload)
open Runs

namespace Sessions

/-- The window that is asked for a packet of the session. -/
def find (s : Sessions) (session : Bytes) : Option Window :=
  match windowOf s.current session with
  | some window => some window
  | none => windowOf s.previous session

theorem windowOf_self : windowOf (some (session, window)) session = some window :=
  if_pos rfl

theorem windowOf_of_ne
    (h : windowOf held session = some window) (hne : other ≠ session) : windowOf held other = none := by
  obtain ⟨⟨id, held⟩, rfl, hid⟩ := Option.bind_eq_some_iff.mp h
  dsimp only at hid
  split_ifs at hid with heq
  exact if_neg fun hother => hne (hother.symm.trans heq)

theorem admitPacket_spec (s : Sessions) (sess : Bytes) (id : UInt64) :
    let window := (s.find sess).getD .fresh
    (s.admitPacket sess id).1 = (window.admitId id).1 ∧
      (s.admitPacket sess id).2.find sess = some (window.admitId id).2 ∧
      ∀ other w, other ≠ sess → (s.admitPacket sess id).2.find other = some w → s.find other = some w := by
  unfold admitPacket find
  cases hcur : windowOf s.current sess with
  | some window =>
    refine ⟨rfl, by simp [windowOf_self], fun other w hne hfind => ?_⟩
    simp only [windowOf_of_ne (windowOf_self) hne] at hfind
    rw [windowOf_of_ne hcur hne]
    exact hfind
  | none =>
    cases hprev : windowOf s.previous sess with
    | some window =>
      refine ⟨rfl, by simp [hcur, windowOf_self], fun other w hne hfind => ?_⟩
      simp only [windowOf_of_ne (windowOf_self) hne] at hfind
      cases hother : windowOf s.current other with
      | some v =>
        rw [hother] at hfind
        exact hfind
      | none =>
        rw [hother] at hfind
        cases hfind
    | none =>
      refine ⟨rfl, by simp [windowOf_self], fun other w hne hfind => ?_⟩
      simp only [windowOf_of_ne (windowOf_self) hne] at hfind
      rw [hfind]

end Sessions

/-! ### Turns of the source -/

/-- The source with the packets that it has read, and those that it has delivered. -/
structure Deliveries where
  state : State
  read : List (Bytes × UInt64)
  delivered : List (Bytes × UInt64)

inductive Event
  | arrive (a : Arrived)
  | turn (now size : ℕ)

variable (relay : PacketRelay)

/-- The session and id of the packet that a turn reads, if it can be opened and is valid. -/
def packetRead (s : State) (now : ℕ) : Option (Bytes × UInt64) :=
  match s.socket with
  | .ok d :: _ =>
    (readPacket relay now (d.payload.take maxUdpPayload)).toOption.map fun p => (p.1.session, p.1.packetId)
  | _ => none

namespace Deliveries

def new : Deliveries := ⟨(source relay).new, [], []⟩

def step (s : Deliveries) : Event → Deliveries
  | .arrive a => { s with state := (source relay).arrive s.state a }
  | .turn now size =>
    match packetRead relay s.state now with
    | none => { s with state := (recvFrom relay s.state now size).1 }
    | some packet =>
      { state := (recvFrom relay s.state now size).1
        read := s.read ++ [packet]
        delivered := if (recvFrom relay s.state now size).2.isSome then s.delivered ++ [packet] else s.delivered }

/-- The ids read in a session. -/
def idsOf (read : List (Bytes × UInt64)) (session : Bytes) : List UInt64 :=
  (read.filter (·.1 = session)).map (·.2)

/-- A session without a window is new, and the window has not forgotten the id. -/
def Remembered (s : Deliveries) : Event → Prop
  | .arrive _ => True
  | .turn now _ => ∀ packet ∈ packetRead relay s.state now,
      (s.state.sessions.find packet.1 = none → idsOf s.read packet.1 = []) ∧
      ¬Window.Forgets (idsOf s.read packet.1) packet.2

structure Sound (s : Deliveries) : Prop where
  once : s.delivered.Nodup
  admitted : ∀ session id, (session, id) ∈ s.delivered → id ∈ (after (idsOf s.read session)).2
  window : ∀ session w, s.state.sessions.find session = some w → w = (after (idsOf s.read session)).1

variable {relay}

theorem recvFrom_none (h : packetRead relay s now = none) : (recvFrom relay s now size).1.sessions = s.sessions := by
  unfold packetRead at h
  unfold recvFrom
  split
  · rfl
  · rfl
  rename_i hsock
  rw [hsock] at h
  dsimp only at h
  split
  · rfl
  · rename_i hread
    rw [hread] at h
    cases h

theorem recvFrom_some (size : ℕ) (h : packetRead relay s now = some packet) :
    (recvFrom relay s now size).1.sessions = (s.sessions.admitPacket packet.1 packet.2).2 ∧
      (recvFrom relay s now size).2.isSome = (s.sessions.admitPacket packet.1 packet.2).1 := by
  unfold packetRead at h
  unfold recvFrom
  split at h
  · rename_i d rest hsock
    obtain ⟨⟨opened, origin, start⟩, hread, rfl⟩ := Option.map_eq_some_iff.mp h
    rw [hsock]
    dsimp only
    split
    · rename_i herror
      rw [herror] at hread
      cases hread
    · rename_i hok
      rw [hok] at hread
      cases hread
      split <;> rename_i hadm <;> rw [hadm] <;> exact ⟨rfl, rfl⟩
  · cases h

theorem idsOf_snoc (read : List (Bytes × UInt64)) :
    idsOf (read ++ [packet]) session = idsOf read session ++ if packet.1 = session then [packet.2] else [] := by
  by_cases h : packet.1 = session <;> simp [idsOf, filter_append, h]

theorem sound_step (s : Deliveries) (e : Event) (h : Sound s) (he : s.Remembered relay e) :
    Sound (s.step relay e) := by
  cases e with
  | arrive a => exact { h with }
  | turn now size =>
    rw [step]
    rcases hread : packetRead relay s.state now with _ | ⟨sess, id⟩
    · exact ⟨h.once, h.admitted, by rw [recvFrom_none hread]; exact h.window⟩
    obtain ⟨hnew, hforgets⟩ := he _ hread
    obtain ⟨hsess, hsome⟩ := recvFrom_some size hread
    obtain ⟨hans, hfind, hoth⟩ := s.state.sessions.admitPacket_spec sess id
    -- The window of the session has seen all the ids of it.
    have hwin : (s.state.sessions.find sess).getD .fresh = (after (idsOf s.read sess)).1 := by
      cases hw : s.state.sessions.find sess with
      | none =>
        rw [hnew hw]
        rfl
      | some w => exact h.window sess w hw
    have hafter : after (idsOf (s.read ++ [(sess, id)]) sess) =
        offer (after (idsOf s.read sess)) id := by
      rw [idsOf_snoc, if_pos rfl]
      exact run_snoc _ _ _
    rw [hwin] at hans hfind
    dsimp only at hsess hsome
    dsimp only
    rw [hsome, hans]
    refine ⟨?_, ?_, ?_⟩
    · split_ifs with hadm
      · refine nodup_append.mpr ⟨h.once, nodup_singleton _, ?_⟩
        rintro _ hmem _ hlast rfl
        cases mem_singleton.mp hlast
        have hshould := (admit_iff_shouldAdmit hforgets).mp hadm
        have hpre := h.admitted sess id hmem
        obtain hall | ⟨top, -, -, -, -, hnot⟩ := hshould
        · exact absurd (hall id hpre) (UInt64.lt_irrefl id)
        · exact hnot hpre
      · exact h.once
    · intro other k hmem
      have hold : (other, k) ∈ s.delivered → k ∈ (after (idsOf (s.read ++ [(sess, id)]) other)).2 := by
        intro hdel
        have hpre := h.admitted other k hdel
        by_cases hother : sess = other
        · subst hother
          rw [hafter]
          exact mem_offer_of_mem hpre
        · rwa [idsOf_snoc, if_neg hother, append_nil]
      split_ifs at hmem with hadm
      · obtain hmem | hlast := mem_append.mp hmem
        · exact hold hmem
        · cases mem_singleton.mp hlast
          rw [hafter, offer, if_pos hadm]
          exact mem_append_right _ mem_cons_self
      · exact hold hmem
    · intro other w hw
      rw [hsess] at hw
      by_cases hother : other = sess
      · subst hother
        rw [hfind] at hw
        cases hw
        rw [hafter]
        rfl
      · rw [idsOf_snoc, if_neg (Ne.symm hother), append_nil]
        exact h.window other w (hoth other w hother hw)

/-- **No packet of the server is delivered twice**, in every run in which the source still remembers what it needs. -/
theorem delivered_once_run (relay : PacketRelay) (es : List Event)
    (h : Along (step relay) (Remembered relay) (new relay) es) : (run (step relay) (new relay) es).delivered.Nodup :=
  (run_invariant (I := Sound) sound_step es (new relay) ⟨nodup_nil, nofun, nofun⟩ h).once

/-- A relay whose packets are not encrypted, and a packet of a server session for it. -/
def plainRelay : PacketRelay := ⟨.merged fun _ body _ => some body, List.replicate 8 0⟩

def packetOf (session id : UInt8) : Direct.Datagram where
  origin := ⟨.v4 0xc0000201#32, 8388⟩
  payload := List.replicate mergedNonce 0 ++ (List.replicate 7 0 ++ [session] ++ List.replicate 7 0 ++ [id]) ++
    ([packetToClient] ++ List.replicate 16 0 ++ [0, 0] ++ [1, 192, 0, 2, 1, 0, 53] ++ [9]) ++ List.replicate tag 0
  fits := by simp [mergedNonce, tag, L3.maxUdpPayload, L3.maxIpv4UdpPayload, L3.ipv4UdpHeader]

/-- The packets arrive and are received, one after the other. -/
def receives (packets : List Direct.Datagram) : List Event := packets.flatMap fun d => [.arrive (.ok d), .turn 0 1500]

theorem delivered_once_replay :
    (run (step plainRelay) (new plainRelay) (receives [packetOf 1 1, packetOf 1 1])).read.length = 2 ∧
    (run (step plainRelay) (new plainRelay) (receives [packetOf 1 1, packetOf 1 1])).delivered.Nodup := by
  refine ⟨by decide +kernel, delivered_once_run plainRelay _ ?_⟩
  have hfew : ∀ {ids : List UInt64} {id : UInt64}, ids.length < 2 → ¬Window.Forgets ids id := by
    rintro ids id hlt ⟨pre, top, mid, rfl, hold, -⟩
    have hpos := length_pos_of_mem hold
    rw [length_append, length_cons] at hlt
    omega
  have hguard : ∀ s : Deliveries, (∀ pkt ∈ packetRead plainRelay s.state 0,
      (s.state.sessions.find pkt.1 = none → idsOf s.read pkt.1 = []) ∧ (idsOf s.read pkt.1).length < 2) →
      s.Remembered plainRelay (.turn 0 1500) := fun s h pkt hp => ⟨(h pkt hp).1, hfew (h pkt hp).2⟩
  exact ⟨trivial, hguard _ (by decide +kernel), trivial, hguard _ (by decide +kernel), trivial⟩

/-- The same packet before and after two other sessions: it is delivered twice. -/
theorem delivered_twice : ((run (step plainRelay) (new plainRelay)
      (receives [packetOf 1 1, packetOf 2 1, packetOf 3 1, packetOf 1 1])).delivered.map fun p => (p.1.getLastD 0, p.2)) =
      [(1, 1), (2, 1), (3, 1), (1, 1)] := by
  decide +kernel

end Deliveries

end Boreas.Shadowsocks
