import Boreas.Runs
import Boreas.Table
import Boreas.TimerWheel

/-! # The UDP flow table

`UdpFlowTable` keeps the live flows with their deadlines, and files each flow's key once in the timer wheel.  `Sound`
is its invariant: every live flow is filed no later than one second after its deadline (`OnTime`).  Every operation
keeps it, `expire` under `TimerWheel.KeepsFar` (`sound_step`), so the owner never sleeps past an expiry
(`neverLate_run`). -/

namespace Boreas

open List hiding cons keys le_refl le_trans max nil not_le
open Option hiding max min_le_left none some
open Runs Table
open Instant (le_iff ofSecs)

def minIdleTimeout : Duration := fromSecs 120

inductive FlowTableError
  | idleTimeoutTooShort
  | deadlineOverflow
  | atCeiling
deriving DecidableEq, Repr

structure EntryState (ν : Type*) where
  value : ν
  deadline : Instant

structure UdpFlowTable (κ ν : Type*) where
  idleTimeout : Duration
  ceiling : ℕ+
  flows : Table κ (EntryState ν)
  wheel : TimerWheel κ

namespace UdpFlowTable

variable {κ ν : Type*} [DecidableEq κ]

def new (idleTimeout : Duration) (ceiling : ℕ+) (epoch : Instant) :
    Except FlowTableError (UdpFlowTable κ ν) :=
  if idleTimeout < minIdleTimeout then .error .idleTimeoutTooShort
  else .ok ⟨idleTimeout, ceiling, ∅, TimerWheel.new epoch⟩

variable (t : UdpFlowTable κ ν)

def nextDeadline : Option ℕ :=
  t.wheel.nextDue.map (fun second => t.wheel.epoch.ns + fromSecs second)

def retain (t : UdpFlowTable κ ν) (keep : κ → ν → Option ν) : UdpFlowTable κ ν × ℕ :=
  let flows := Table.retain (fun k st => (keep k st.value).map (fun v => { st with value := v })) t.flows
  ({ t with flows := flows }, size t.flows - size flows)

def getOrInsertWith (key : κ) (now : Instant) (create : ν) :
    UdpFlowTable κ ν × Except FlowTableError ν :=
  match now.checkedAdd t.idleTimeout with
  | none => (t, .error .deadlineOverflow)
  | some deadline =>
    match t.flows.lookup key with
    | some st => ({ t with flows := t.flows.insert key { st with deadline := deadline } }, .ok st.value)
    | none =>
      if size t.flows ≥ t.ceiling then (t, .error .atCeiling)
      else
        ({ t with
            flows := t.flows.insert key ⟨create, deadline⟩
            wheel := t.wheel.insert deadline key }, .ok create)

def expireOne (now : Instant) (acc : UdpFlowTable κ ν × List ν) (key : κ) : UdpFlowTable κ ν × List ν :=
  match acc.1.flows.lookup key with
  | some st =>
    if st.deadline ≤ now then ({ acc.1 with flows := acc.1.flows.erase key }, acc.2 ++ [st.value])
    else ({ acc.1 with wheel := acc.1.wheel.insert st.deadline key }, acc.2)
  | none => acc

def expire (now : Instant) : UdpFlowTable κ ν × List ν :=
  let taken := t.wheel.takeDue now
  taken.2.foldl (expireOne now) ({ t with wheel := taken.1 }, [])

def getMut (key : κ) : Option ν := (t.flows.lookup key).map EntryState.value

def putMut (key : κ) (value : ν) : UdpFlowTable κ ν :=
  match t.flows.lookup key with
  | some st => { t with flows := t.flows.insert key { st with value := value } }
  | none => t

/-! ### What holds of every flow -/

def AllFlows (P : κ → ν → Prop) (t : UdpFlowTable κ ν) : Prop :=
  ∀ k st, t.flows.lookup k = some st → P k st.value

variable {P : κ → ν → Prop}

theorem AllFlows.getOrInsertWith {t : UdpFlowTable κ ν} (h : t.AllFlows P) (now : Instant)
    (hcreate : P key create) : (t.getOrInsertWith key now create).1.AllFlows P := by
  unfold UdpFlowTable.getOrInsertWith
  rcases now.checkedAdd t.idleTimeout with _ | due
  · exact h
  cases hkey : t.flows.lookup key with
  | some st => exact forall_lookup_insert (P := fun k (st : EntryState ν) => P k st.value) key (h key st hkey) h
  | none =>
    split_ifs with hfull
    · exact h
    · exact forall_lookup_insert (P := fun k (st : EntryState ν) => P k st.value) key hcreate h

theorem AllFlows.putMut {t : UdpFlowTable κ ν} (h : t.AllFlows P) (hvalue : P key value) :
    (t.putMut key value).AllFlows P := by
  unfold UdpFlowTable.putMut
  rcases hkey : t.flows.lookup key with _ | st
  · exact h
  exact forall_lookup_insert (P := fun k (st : EntryState ν) => P k st.value) key hvalue h

variable {t : UdpFlowTable κ ν}

theorem AllFlows.retain (h : t.AllFlows P)
    (hkeep : ∀ k v v', P k v → keep k v = some v' → P k v') : (t.retain keep).1.AllFlows P := by
  intro k st' hst'
  simp only [UdpFlowTable.retain, lookup_retain, bind_eq_some_iff, map_eq_some_iff] at hst'
  obtain ⟨st, hst, v, hv, rfl⟩ := hst'
  exact hkeep k st.value v (h k st hst) hv

theorem AllFlows.expireOne (h : acc.1.AllFlows P) (key : κ) : (expireOne now acc key).1.AllFlows P := by
  unfold UdpFlowTable.expireOne
  rcases acc.1.flows.lookup key with _ | st
  · exact h
  dsimp only
  split_ifs with hdue
  · intro k st' hst'
    rw [lookup_erase_eq] at hst'
    split_ifs at hst' with hk
    exact h k st' hst'
  · exact h

theorem AllFlows.expire (h : t.AllFlows P) (now : Instant) : (t.expire now).1.AllFlows P := by
  unfold UdpFlowTable.expire
  dsimp only
  generalize (t.wheel.takeDue now).2 = keys
  have hstart : ({ t with wheel := (t.wheel.takeDue now).1 } : UdpFlowTable κ ν).AllFlows P := h
  generalize { t with wheel := (t.wheel.takeDue now).1 } = t' at hstart
  have : ∀ (keys : List κ) (acc : UdpFlowTable κ ν × List ν), acc.1.AllFlows P →
      (keys.foldl (UdpFlowTable.expireOne now) acc).1.AllFlows P := by
    intro keys
    induction keys with
    | nil => exact fun _ hacc => hacc
    | cons key keys ih => exact fun acc hacc => ih _ (hacc.expireOne key)
  exact this keys (t', []) hstart

/-! ### What a call does to one flow -/

theorem getOrInsertWith_spec (t : UdpFlowTable κ ν) (key : κ) (now : Instant) (create : ν) :
    (∃ e, t.getOrInsertWith key now create = (t, .error e)) ∨
      ∃ t' due, t.getOrInsertWith key now create = (t', .ok ((t.getMut key).getD create)) ∧
        now.checkedAdd t.idleTimeout = some due ∧ t'.idleTimeout = t.idleTimeout ∧ ∀ k, t'.flows.lookup k =
          if k = key then some ⟨(t.getMut key).getD create, due⟩ else t.flows.lookup k := by
  unfold getOrInsertWith getMut
  rcases hdl : now.checkedAdd t.idleTimeout with _ | due
  · exact .inl ⟨_, rfl⟩
  cases hkey : t.flows.lookup key with
  | some st => exact .inr ⟨_, due, rfl, rfl, rfl, fun k => lookup_insert_eq _ _ _ _⟩
  | none =>
    split_ifs with hfull
    · exact .inl ⟨_, rfl⟩
    · exact .inr ⟨_, due, rfl, rfl, rfl, fun k => lookup_insert_eq _ _ _ _⟩

theorem getMut_putMut (h : t.getMut key = some old) (value : ν) (k : κ) :
    (t.putMut key value).getMut k = if k = key then some value else t.getMut k := by
  obtain ⟨st, hst, -⟩ := map_eq_some_iff.mp h
  unfold putMut getMut
  rw [hst]
  rw [lookup_insert_eq]
  split_ifs <;> rfl

/-- `expire` leaves a flow as it is, or ends it at or after its deadline. -/
def KeptOrDue (now : Instant) (t t' : UdpFlowTable κ ν) (k : κ) : Prop :=
  t'.flows.lookup k = t.flows.lookup k ∨
    t'.flows.lookup k = none ∧ ∃ st, t.flows.lookup k = some st ∧ st.deadline ≤ now

theorem keptOrDue_expireOne (now : Instant) (acc : UdpFlowTable κ ν × List ν) (key k : κ) :
    KeptOrDue now acc.1 (expireOne now acc key).1 k := by
  unfold expireOne
  rcases hkey : acc.1.flows.lookup key with _ | st
  · exact .inl rfl
  dsimp only
  split_ifs with hdue
  · by_cases hk : k = key
    · subst hk
      exact .inr ⟨AList.lookup_erase k acc.1.flows, st, hkey, hdue⟩
    · exact .inl (AList.lookup_erase_ne hk)
  · exact .inl rfl

theorem KeptOrDue.trans (h : KeptOrDue now t t' k) (h' : KeptOrDue now t' t'' k) : KeptOrDue now t t'' k := by
  rcases h' with h' | ⟨hnone, st, hst, hdue⟩
  · rw [KeptOrDue, h']
    exact h
  · rcases h with h | ⟨hgone, -⟩
    · exact .inr ⟨hnone, st, h ▸ hst, hdue⟩
    · rw [hgone] at hst
      cases hst

theorem keptOrDue_expire (t : UdpFlowTable κ ν) (now : Instant) (k : κ) : KeptOrDue now t (t.expire now).1 k := by
  suffices h : ∀ (keys : List κ) (acc : UdpFlowTable κ ν × List ν),
      KeptOrDue now acc.1 (keys.foldl (expireOne now) acc).1 k from h _ _
  intro keys
  induction keys with
  | nil => exact fun _ => .inl rfl
  | cons key keys ih => exact fun acc => (keptOrDue_expireOne now acc key k).trans (ih _)

theorem idleTimeout_expire : (t.expire now).1.idleTimeout = t.idleTimeout := by
  suffices h : ∀ (keys : List κ) (acc : UdpFlowTable κ ν × List ν),
      (keys.foldl (expireOne now) acc).1.idleTimeout = acc.1.idleTimeout from h _ _
  intro keys
  induction keys with
  | nil => exact fun _ => rfl
  | cons key keys ih =>
    intro acc
    rw [foldl_cons, ih]
    unfold expireOne
    split
    · split_ifs <;> rfl
    · rfl

/-! ### Runs -/

inductive Op (κ ν : Type*)
  | getOrInsertWith (key : κ) (now : Instant) (create : ν)
  | retain (keep : κ → ν → Option ν)
  | expire (now : Instant)

def Op.reading : Op κ ν → Option Instant
  | .getOrInsertWith _ now _ => some now
  | .retain _ => none
  | .expire now => some now

section

variable (t : UdpFlowTable κ ν)

def step : Op κ ν → UdpFlowTable κ ν
  | .getOrInsertWith key now create => (t.getOrInsertWith key now create).1
  | .retain keep => (t.retain keep).1
  | .expire now => (t.expire now).1

/-- The calls' clock readings do not go backwards, and start no earlier than `epoch`. -/
def Clocked (epoch : Instant) (ops : List (Op κ ν)) : Prop :=
  (epoch :: ops.filterMap Op.reading).Pairwise (· ≤ ·)

/-- The timer never fires late: while a flow is live there is a next deadline, at most one second after
the deadline of each live flow. -/
def NeverLate : Prop :=
  ∀ k st, t.flows.lookup k = some st →
    ∃ at_, t.nextDeadline = some at_ ∧ at_ ≤ st.deadline.ns + fromSecs 1

/-- An `expire` leaves the wheel's overflow list past its ring. -/
def ExpireKeepsFar : Op κ ν → Prop
  | .expire now => t.wheel.KeepsFar now
  | _ => True

instance (t : UdpFlowTable κ ν) : (op : Op κ ν) → Decidable (t.ExpireKeepsFar op)
  | .expire now => inferInstanceAs (Decidable (t.wheel.KeepsFar now))
  | .getOrInsertWith _ _ _ => .isTrue trivial
  | .retain _ => .isTrue trivial

/-! ### The invariant -/

/-- Every live flow but the `pending` ones is filed at most one second past its deadline. -/
def OnTime (pending : List κ) : Prop :=
  ∀ k st, t.flows.lookup k = some st → k ∈ pending ∨
    ∃ s, t.wheel.Filed (s, k) ∧ t.wheel.epoch.ns + fromSecs s ≤ st.deadline.ns + fromSecs 1

/-- The table is sound at the reading `last`, but for the filing of the `pending` keys: those `expire` has
surfaced and not worked on yet. -/
structure SoundBut (pending : List κ) (t : UdpFlowTable κ ν) (last : Instant) : Prop where
  ring : t.wheel.Ring
  far : t.wheel.Far
  epoch_le : t.wheel.epoch ≤ last
  drained_le : t.wheel.drained ≤ t.wheel.second last + 1
  deadline_le : ∀ k st, t.flows.lookup k = some st → st.deadline.ns ≤ last.ns + t.idleTimeout
  onTime : t.OnTime pending

abbrev Sound (last : Instant) : Prop := SoundBut [] t last

end

theorem Sound.neverLate (h : t.Sound last) : t.NeverLate := by
  intro k st hk
  obtain ⟨s, hfiled, hs⟩ := (h.onTime k st hk).resolve_left not_mem_nil
  obtain ⟨due, hdue, hle⟩ := TimerWheel.nextDue_le h.ring h.far hfiled
  refine ⟨t.wheel.epoch.ns + fromSecs due, by rw [nextDeadline, hdue]; rfl, le_trans ?_ hs⟩
  have : fromSecs due ≤ fromSecs s := Nat.mul_le_mul_right _ hle
  omega

end UdpFlowTable

namespace TimerWheel

variable {κ : Type*}

variable {w : TimerWheel κ}

theorem fromSecs_second_le (h : w.epoch ≤ d) : w.epoch.ns + fromSecs (w.second d) ≤ d.ns := by
  have hmin : w.second d ≤ (d.ns - w.epoch.ns) / nanosPerSec := min_le_left _ _
  have hmul : fromSecs (w.second d) ≤ d.ns - w.epoch.ns :=
    (Nat.mul_le_mul_right _ hmin).trans (Nat.div_mul_le_self _ _)
  have := (le_iff _).mp h
  omega

theorem second_mono (h : a ≤ b) : w.second a ≤ w.second b := by
  have hab : a.ns - w.epoch.ns ≤ b.ns - w.epoch.ns := Nat.sub_le_sub_right ((le_iff _).mp h) _
  exact min_le_min_right _ (Nat.div_le_div_right hab)

theorem second_congr {w w' : TimerWheel κ} (h : w'.epoch = w.epoch) :
    w'.second d = w.second d := by unfold second; rw [h]

/-- Where `insert` files a key: at most one second past the deadline, when the deadline is not before the
reading `now` that `drained` has reached. -/
theorem filing_le (hep : w.epoch ≤ now)
    (hdr : w.drained ≤ w.second now + 1) (hle : now ≤ due) :
    w.epoch.ns + fromSecs (max (w.second due) w.drained) ≤ due.ns + fromSecs 1 := by
  have h1 := fromSecs_second_le (hep.trans hle)
  have h2 := fromSecs_second_le hep
  have h3 := (le_iff _).mp hle
  unfold fromSecs at *
  rcases max_cases (w.second due) w.drained with ⟨hm, -⟩ | ⟨hm, -⟩
  · rw [hm]; omega
  · rw [hm]
    have : w.drained * nanosPerSec ≤ (w.second now + 1) * nanosPerSec := Nat.mul_le_mul_right _ hdr
    rw [Nat.add_mul] at this
    omega

end TimerWheel

namespace UdpFlowTable

variable {κ ν : Type*} [DecidableEq κ]

variable {t : UdpFlowTable κ ν}

theorem sound_new {idleTimeout : Duration} {ceiling : ℕ+}
    (h : new idleTimeout ceiling epoch = .ok t) : t.Sound epoch := by
  unfold new at h
  split_ifs at h
  cases h
  refine ⟨?_, ?_, le_refl _, Nat.zero_le _, ?_, ?_⟩
  · intro i e he; simp [TimerWheel.new] at he
  · intro e he; simp [TimerWheel.new] at he
  · intro k st hk; simp at hk
  · intro k st hk; simp at hk

theorem Sound.advance (h : t.Sound last) (hle : last ≤ now) : t.Sound now := by
  refine ⟨h.ring, h.far, h.epoch_le.trans hle, ?_, fun k st hk => ?_, h.onTime⟩
  · exact h.drained_le.trans (Nat.add_le_add_right (TimerWheel.second_mono hle) 1)
  · have := h.deadline_le k st hk
    have := (le_iff _).mp hle
    omega

theorem sound_retain (h : t.Sound last) (keep : κ → ν → Option ν) : (t.retain keep).1.Sound last := by
  -- What survives has the deadline it had.
  have hold : ∀ k st, (t.retain keep).1.flows.lookup k = some st →
      ∃ st', t.flows.lookup k = some st' ∧ st'.deadline = st.deadline := by
    intro k st hk
    unfold retain at hk
    rw [lookup_retain] at hk
    obtain ⟨st', hst', hv⟩ := bind_eq_some_iff.mp hk
    obtain ⟨v, -, rfl⟩ := map_eq_some_iff.mp hv
    exact ⟨st', hst', rfl⟩
  refine ⟨h.ring, h.far, h.epoch_le, h.drained_le, fun k st hk => ?_, fun k st hk => ?_⟩
  · obtain ⟨st', hst', hd⟩ := hold k st hk
    rw [← hd]
    exact h.deadline_le k st' hst'
  · obtain ⟨st', hst', hd⟩ := hold k st hk
    rw [← hd]
    exact h.onTime k st' hst'

theorem sound_getOrInsertWith (h : t.Sound now) (key : κ)
    (create : ν) : (t.getOrInsertWith key now create).1.Sound now := by
  unfold getOrInsertWith
  rcases hadd : now.checkedAdd t.idleTimeout with _ | due
  · exact h
  have hns := Instant.checkedAdd_eq_some hadd
  cases hlook : t.flows.lookup key with
  | some st =>
    -- A refresh moves the deadline later and leaves the filing where it is.
    have hold := h.deadline_le key st hlook
    refine ⟨h.ring, h.far, h.epoch_le, h.drained_le, fun k st' hk => ?_, fun k st' hk => ?_⟩ <;>
      dsimp only at hk <;> rw [lookup_insert_eq] at hk <;> split_ifs at hk with hkk
    · cases hk
      exact hns.le
    · exact h.deadline_le k st' hk
    · cases hk
      subst hkk
      obtain ⟨s, hs, hle⟩ := (h.onTime k st hlook).resolve_left not_mem_nil
      refine .inr ⟨s, hs, hle.trans ?_⟩
      dsimp only
      omega
    · exact h.onTime k st' hk
  | none =>
    split_ifs with hfull
    · exact h
    have hins := t.wheel.insert_spec due key
    have hep : t.wheel.epoch ≤ now := h.epoch_le
    refine ⟨hins.ring h.ring, hins.far h.far, ?_, ?_, fun k st' hk => ?_, fun k st' hk => ?_⟩
    · rw [hins.epoch]; exact hep
    · rw [hins.drained, TimerWheel.second_congr hins.epoch]; exact h.drained_le
    · rw [lookup_insert_eq] at hk
      split_ifs at hk with hkk
      · cases hk; exact hns.le
      · exact h.deadline_le k st' hk
    · rw [lookup_insert_eq] at hk
      rw [hins.epoch]
      refine .inr ?_
      split_ifs at hk with hkk
      · cases hk
        subst hkk
        refine ⟨_, (hins.filed _).mpr (.inr rfl), ?_⟩
        refine TimerWheel.filing_le hep h.drained_le ((le_iff _).mpr ?_)
        omega
      · obtain ⟨s, hs, hle⟩ := (h.onTime k st' hk).resolve_left not_mem_nil
        exact ⟨s, (hins.filed _).mpr (.inl hs), hle⟩

theorem soundBut_expireOne {key : κ}
    (h : SoundBut (key :: keys) acc.1 now) : SoundBut keys (expireOne now acc key).1 now := by
  -- Every other key is pending or filed as before.
  have hother : ∀ k st, k ≠ key → acc.1.flows.lookup k = some st → k ∈ keys ∨
      ∃ s, acc.1.wheel.Filed (s, k) ∧ acc.1.wheel.epoch.ns + fromSecs s ≤ st.deadline.ns + fromSecs 1 := by
    intro k st hne hk
    rcases h.onTime k st hk with hp | hp
    · exact .inl ((mem_cons.mp hp).resolve_left hne)
    · exact .inr hp
  unfold expireOne
  rcases hlook : acc.1.flows.lookup key with _ | st
  · refine ⟨h.ring, h.far, h.epoch_le, h.drained_le, h.deadline_le, fun k st hk => hother k st ?_ hk⟩
    rintro rfl
    rw [hlook] at hk
    cases hk
  dsimp only
  split_ifs with hdue
  · refine ⟨h.ring, h.far, h.epoch_le, h.drained_le, fun k st' hk => ?_, fun k st' hk => ?_⟩ <;>
      dsimp only at hk <;> rw [lookup_erase_eq] at hk <;> split_ifs at hk with hkk
    · exact h.deadline_le k st' hk
    · exact hother k st' hkk hk
  have hins := acc.1.wheel.insert_spec st.deadline key
  refine ⟨hins.ring h.ring, hins.far h.far, ?_, ?_, h.deadline_le, fun k st' hk => ?_⟩
  · rw [hins.epoch]; exact h.epoch_le
  · rw [hins.drained, TimerWheel.second_congr hins.epoch]; exact h.drained_le
  · rw [hins.epoch]
    by_cases hkk : k = key
    · subst hkk
      rw [hlook] at hk
      cases hk
      refine .inr ⟨_, (hins.filed _).mpr (.inr rfl), ?_⟩
      exact TimerWheel.filing_le h.epoch_le h.drained_le (not_le.mp hdue).le
    · refine (hother k st' hkk hk).imp_right ?_
      rintro ⟨s, hs, hle⟩
      exact ⟨s, (hins.filed _).mpr (.inl hs), hle⟩

theorem sound_foldl_expireOne {now : Instant} : ∀ (keys : List κ) (acc : UdpFlowTable κ ν × List ν),
    SoundBut keys acc.1 now → Sound (keys.foldl (expireOne now) acc).1 now
  | [], _, h => h
  | _ :: keys, _, h => sound_foldl_expireOne keys _ (soundBut_expireOne h)

theorem sound_expire (h : t.Sound now) (hfar : t.wheel.KeepsFar now) : (t.expire now).1.Sound now := by
  have htaken := TimerWheel.takeDue_spec h.ring h.drained_le
  have hstart : SoundBut (t.wheel.takeDue now).2
      ({ t with wheel := (t.wheel.takeDue now).1 } : UdpFlowTable κ ν) now := by
    refine ⟨htaken.ring, htaken.far hfar, ?_, ?_, h.deadline_le, fun k st hk => ?_⟩
    · rw [htaken.epoch]; exact h.epoch_le
    · rw [htaken.drained, TimerWheel.second_congr htaken.epoch]
    · obtain ⟨s, hs, hle⟩ := (h.onTime k st hk).resolve_left not_mem_nil
      rcases htaken.filed _ hs with hs' | hs'
      · refine .inr ⟨s, hs', ?_⟩
        rw [htaken.epoch]
        exact hle
      · exact .inl hs'
  exact sound_foldl_expireOne (t.wheel.takeDue now).2 ({ t with wheel := (t.wheel.takeDue now).1 }, []) hstart

/-- **Step lemma**: each call, at a reading not before the last one, keeps the invariant. -/
theorem sound_step (h : t.Sound last) (op : Op κ ν)
    (hle : ∀ now, op.reading = some now → last ≤ now) (hfar : t.ExpireKeepsFar op) :
    (t.step op).Sound (op.reading.getD last) := by
  cases op with
  | getOrInsertWith key now create => exact sound_getOrInsertWith (h.advance (hle now rfl)) key create
  | retain keep => exact sound_retain h keep
  | expire now => exact sound_expire (h.advance (hle now rfl)) hfar

theorem sound_run (h : t.Sound epoch) (ops : List (Op κ ν))
    (hfar : Along step ExpireKeepsFar t ops) : Clocked epoch ops →
      ∃ last ∈ epoch :: ops.filterMap Op.reading, (run step t ops).Sound last := by
  refine run_history (I := fun es t' => Clocked epoch es →
    ∃ last ∈ epoch :: es.filterMap Op.reading, t'.Sound last) ?_ ?_ ops hfar
  · exact fun _ => ⟨epoch, mem_cons_self, h⟩
  · intro es op ih hG hclock
    unfold Clocked at hclock ih
    rw [filterMap_append, ← cons_append, pairwise_append] at hclock
    obtain ⟨last, hmem, hs⟩ := ih hclock.1
    refine ⟨op.reading.getD last, ?_, sound_step hs op (fun now hnow => ?_) hG⟩
    · rw [filterMap_append, ← cons_append, mem_append]
      cases hr : op.reading with
      | none => exact .inl hmem
      | some now => exact .inr (by simp [hr])
    · exact hclock.2.2 last hmem now (by simp [hnow])

/-- **The owner never sleeps past an expiry** in a run whose `expire` calls all leave the overflow list
past the ring. -/
theorem neverLate_run {idleTimeout : Duration} {ceiling : ℕ+} {epoch : Instant} {t : UdpFlowTable κ ν}
    (hnew : new idleTimeout ceiling epoch = .ok t) (ops : List (Op κ ν)) (hclock : Clocked epoch ops)
    (hfar : Along step ExpireKeepsFar t ops) : (run step t ops).NeverLate := by
  obtain ⟨last, -, hs⟩ := sound_run (sound_new hnew) ops hfar hclock
  exact hs.neverLate

def oneFlow : UdpFlowTable ℕ Unit := ⟨fromSecs 120, 1, ∅, TimerWheel.new (ofSecs 0)⟩

def earlyOps : List (Op ℕ Unit) :=
  [.getOrInsertWith 7 (ofSecs 1) (), .expire (ofSecs 2), .getOrInsertWith 7 (ofSecs 3) ()]

theorem neverLate_earlyOps : ((run step oneFlow earlyOps).flows.lookup 7).isSome = true ∧
      (run step oneFlow earlyOps).NeverLate :=
  ⟨by decide, neverLate_run (show new (fromSecs 120) 1 (ofSecs 0) = .ok oneFlow from rfl) earlyOps
    (by unfold Clocked; decide) ⟨trivial, by decide, trivial, trivial⟩⟩

def idleGapOps : List (Op ℕ Unit) :=
  [.getOrInsertWith 7 (ofSecs 400) (), .expire (ofSecs 400)]

set_option maxRecDepth 2000 in
theorem run_idleGapOps : run step oneFlow idleGapOps = { oneFlow with
      flows := oneFlow.flows.insert 7 ⟨(), ofSecs 520⟩
      wheel := ⟨fun _ => [], [(520, 7)], ofSecs 0, 401⟩ } := by
  have htake : TimerWheel.takeDue ⟨fun _ => [], [(520, 7)], ofSecs 0, 0⟩ (ofSecs 400) =
      (⟨fun _ => [], [(520, 7)], ofSecs 0, 401⟩, ([] : List ℕ)) := by
    have hsec : TimerWheel.second ⟨fun _ => [], [(520, 7)], ofSecs 0, 0⟩ (ofSecs 400) = 400 := by
      decide
    have hsort : TimerWheel.sortOverflow ⟨fun _ => [], [(520, 7)], ofSecs 0, 0⟩ 400 =
        (⟨fun _ => [], [(520, 7)], ofSecs 0, 0⟩, ([] : List ℕ)) := rfl
    simp only [TimerWheel.takeDue, hsec, hsort, TimerWheel.drainLoop_empty]
  have hopen : step oneFlow (.getOrInsertWith 7 (ofSecs 400) ()) =
      { oneFlow with
        flows := oneFlow.flows.insert 7 ⟨(), ofSecs 520⟩
        wheel := ⟨fun _ => [], [(520, 7)], ofSecs 0, 0⟩ } := rfl
  rw [idleGapOps, run_cons, hopen, run_cons, step, expire, htake]
  rfl

/-- **An idle gap makes the timer late**: the flow's deadline is second 520, and the timer is armed for
second 913. -/
theorem late_after_idle_gap : new (fromSecs 120) 1 (ofSecs 0) = .ok oneFlow ∧ Clocked (ofSecs 0) idleGapOps ∧
      (run step oneFlow idleGapOps).nextDeadline = some (fromSecs 913) ∧
      ¬ (run step oneFlow idleGapOps).NeverLate := by
  rw [run_idleGapOps]
  have hnext : nextDeadline { oneFlow with
      flows := oneFlow.flows.insert 7 ⟨(), ofSecs 520⟩
      wheel := ⟨fun _ => [], [(520, 7)], ofSecs 0, 401⟩ } = some (fromSecs 913) := by decide +kernel
  refine ⟨rfl, by unfold Clocked; decide, hnext, fun h => ?_⟩
  obtain ⟨at_, hat, hle⟩ := h 7 ⟨(), ofSecs 520⟩ (AList.lookup_insert _)
  rw [hnext] at hat
  cases hat
  exact absurd hle (by decide)

end UdpFlowTable
end Boreas
