import Boreas.Runs
import Boreas.Bitmap

/-! # The anti-replay window of a Shadowsocks 2022 server session

`Window` (src/egress/shadowsocks.rs) remembers the highest packet id it admitted and, in one 64-bit shift register,
which of the 64 ids below it were admitted.  `ShouldAdmit` is what it is for, and `Exact ids` that the register
computes this on every prefix of the offered ids.  The register forgets one id: when the highest jumps forward by
exactly `width`, the old highest is still inside the window but its bit is not set.  `exact_iff_noForgottenReplay`
says that this is the only way to lose exactness. -/

namespace Boreas.Shadowsocks

open Boreas.Runs List UInt64

def width : ℕ := 64

/-- `Window`: no highest id exists until the first packet. -/
structure Window where
  highest : Option UInt64
  below : BitVec 64
deriving DecidableEq, Repr

namespace Window

def fresh : Window := ⟨none, 0⟩

variable (w : Window)

def admitId (id : UInt64) : Bool × Window :=
  match w.highest with
  | none => (true, { w with highest := some id })
  | some highest =>
    if highest < id then
      let gap := (id - highest).toNat
      (true, ⟨some id, if gap < 64 then (w.below <<< gap) ||| (1#64 <<< (gap - 1)) else 0⟩)
    else
      let behind := (highest - id).toNat
      if behind = 0 ∨ 64 < behind then (false, w)
      else if w.below &&& (1#64 <<< (behind - 1)) ≠ 0 then (false, w)
      else (true, { w with below := w.below ||| (1#64 <<< (behind - 1)) })

def remembers (k : ℕ) : Bool := w.below.getLsbD (k - 1)

def offer (s : Window × List UInt64) (id : UInt64) : Window × List UInt64 :=
  ((s.1.admitId id).2, if (s.1.admitId id).1 then s.2 ++ [id] else s.2)

variable (ids : List UInt64)

def after : Window × List UInt64 := run offer (fresh, []) ids

/-! ### The register -/

/-- The register has the bit of an id below the highest one. -/
def Knows (a : UInt64) : Prop :=
  ∃ top k, w.highest = some top ∧ 1 ≤ k ∧ k ≤ 64 ∧ a.toNat + k = top.toNat ∧ w.remembers k = true

variable {w}

theorem knows_iff (b : BitVec 64) (a : UInt64) : Knows ⟨some h, b⟩ a ↔
    a.toNat < h.toNat ∧ h.toNat ≤ a.toNat + 64 ∧ b.getLsbD (h.toNat - a.toNat - 1) = true := by
  constructor
  · rintro ⟨top, k, htop, hk, hk', heq, hrem⟩
    cases htop
    rw [← heq, Nat.add_sub_cancel_left]
    exact ⟨by omega, by omega, hrem⟩
  · rintro ⟨hlt, hle, hbit⟩
    exact ⟨h, h.toNat - a.toNat, rfl, by omega, by omega, by omega, hbit⟩

/-- What `admitId` does to the ids that are known. -/
inductive Admits (w : Window) (id : UInt64) : Bool × Window → Prop
  | raise {b : BitVec 64} : (∀ top, w.highest = some top → top.toNat < id.toNat) →
      (∀ a, Knows ⟨some id, b⟩ a ↔ id.toNat ≤ a.toNat + 64 ∧
        ∃ top, w.highest = some top ∧ id.toNat - top.toNat < 64 ∧ (a = top ∨ Knows w a)) → Admits w id (true, ⟨some id, b⟩)
  | refuse {top : UInt64} : w.highest = some top → id.toNat ≤ top.toNat →
      (id = top ∨ id.toNat + 64 < top.toNat ∨ Knows w id) → Admits w id (false, w)
  | fill {top : UInt64} {b : BitVec 64} : w.highest = some top → id.toNat < top.toNat → top.toNat ≤ id.toNat + 64 →
      ¬ Knows w id → (∀ a, Knows ⟨some top, b⟩ a ↔ Knows w a ∨ a = id) → Admits w id (true, ⟨some top, b⟩)

variable {id : UInt64}

theorem knows_shift (b : BitVec 64) (hlt : top.toNat < id.toNat) :
    Knows ⟨some id, (b <<< (id.toNat - top.toNat)) ||| (1#64 <<< (id.toNat - top.toNat - 1))⟩ a ↔
      id.toNat ≤ a.toNat + 64 ∧ (a = top ∨ Knows ⟨some top, b⟩ a) := by
  rw [knows_iff, knows_iff, BitVec.getLsbD_or, ← UInt64.toNat_inj]
  by_cases hin : a.toNat < id.toNat ∧ id.toNat ≤ a.toNat + 64
  · rw [getLsbD_one_shiftLeft _ (by omega)]
    grind
  · grind

theorem admits (hstart : w.highest = none → w.below = 0) (id : UInt64) : Admits w id (w.admitId id) := by
  obtain ⟨highest, below⟩ := w
  rcases highest with _ | top
  · cases hstart rfl
    exact .raise nofun fun a => by simp [knows_iff]
  have hsub : ∀ {x y : UInt64}, x.toNat ≤ y.toNat → (y - x).toNat = y.toNat - x.toNat := fun h =>
    UInt64.toNat_sub_of_le _ _ (UInt64.le_iff_toNat_le.mpr h)
  unfold admitId
  dsimp only
  split_ifs with hlt hgap hout hbit
  all_goals rw [UInt64.lt_iff_toNat_lt] at hlt
  · rw [hsub hlt.le] at hgap ⊢
    refine .raise (fun _ h => by cases h; exact hlt) fun a => ?_
    simp [knows_shift below hlt, hgap]
  · rw [hsub hlt.le] at hgap
    refine .raise (fun _ h => by cases h; exact hlt) fun a => ?_
    simp [knows_iff, hgap]
  · rw [hsub (not_lt.mp hlt)] at hout
    refine .refuse rfl (not_lt.mp hlt) ?_
    rw [← UInt64.toNat_inj]
    omega
  · rw [hsub (not_lt.mp hlt)] at hout hbit
    rw [and_one_shiftLeft_ne_zero _ (by omega)] at hbit
    exact .refuse rfl (not_lt.mp hlt) (.inr (.inr ((knows_iff below id).mpr ⟨by omega, by omega, hbit⟩)))
  · rw [hsub (not_lt.mp hlt)] at hout hbit ⊢
    rw [and_one_shiftLeft_ne_zero _ (by omega)] at hbit
    refine .fill rfl (by omega) (by omega) (fun h => hbit ((knows_iff below id).mp h).2.2) fun a => ?_
    rw [knows_iff, knows_iff, BitVec.getLsbD_or, ← UInt64.toNat_inj]
    by_cases hin : a.toNat < top.toNat ∧ top.toNat ≤ a.toNat + 64
    · rw [getLsbD_one_shiftLeft _ (by omega)]
      grind
    · grind

/-! ### What the window is for -/

/-- The rule of the window: above every admitted id, or at most `width` below the highest
admitted one and new. -/
def ShouldAdmit (admitted : List UInt64) (id : UInt64) : Prop :=
  (∀ a ∈ admitted, a < id) ∨
    ∃ top ∈ admitted, (∀ a ∈ admitted, a ≤ top) ∧ id ≤ top ∧ top.toNat - id.toNat ≤ width ∧
      id ∉ admitted

/-- On every prefix of `ids` the register answers by the rule, and no id is admitted twice. -/
def Exact : Prop :=
  (after ids).2.Nodup ∧ ∀ pre id post, ids = pre ++ id :: post →
    (((after pre).1.admitId id).1 = true ↔ ShouldAdmit (after pre).2 id)

def Forgets (es : List UInt64) (old : UInt64) : Prop :=
  ∃ pre top mid, es = pre ++ top :: mid ∧ old ∈ pre ∧ (∀ a ∈ pre, a ≤ old) ∧
    top.toNat = old.toNat + width ∧ ∀ a ∈ mid, a ≤ top

/-- No id of the sequence is offered while the ids before it make the register forget it. -/
def NoForgottenReplay : Prop :=
  ∀ pre id post, ids = pre ++ id :: post → ¬ Forgets pre id

variable {es : List UInt64}

theorem Forgets.snoc (h : Forgets es old)
    (hid : ∀ top, (∀ a ∈ es, a ≤ top) → top ∈ es → id ≤ top) : Forgets (es ++ [id]) old := by
  obtain ⟨pre, top, mid, rfl, hold, hmax, htop, hmid⟩ := h
  refine ⟨pre, top, mid ++ [id], by simp, hold, hmax, htop, ?_⟩
  have hle : id ≤ top := by
    apply hid top
    · intro a ha
      rcases mem_append.mp ha with ha | ha
      · have := UInt64.le_iff_toNat_le.mp (hmax a ha)
        exact UInt64.le_iff_toNat_le.mpr (by omega)
      · rcases mem_cons.mp ha with rfl | ha
        · exact UInt64.le_refl _
        · exact hmid a ha
    · simp
  intro a ha
  rcases mem_append.mp ha with ha | ha
  · exact hmid a ha
  · rw [mem_singleton] at ha
    rw [ha]; exact hle

/-! ### What the register knows -/

/-- The link between the register and the ids offered so far: `highest` is their maximum, a known id is an admitted one,
and an admitted id inside the window is known unless the register forgot it. -/
structure Tracks (es : List UInt64) (s : Window × List UInt64) : Prop where
  sub : ∀ a ∈ s.2, a ∈ es
  start : s.1.highest = none → es = [] ∧ s.1.below = 0
  top : ∀ h, s.1.highest = some h → h ∈ s.2 ∧ ∀ a ∈ es, a.toNat ≤ h.toNat
  sound : ∀ a, Knows s.1 a → a ∈ s.2
  complete : ∀ h a, s.1.highest = some h → a ∈ s.2 → a.toNat < h.toNat → h.toNat ≤ a.toNat + 64 →
    Knows s.1 a ∨ (h.toNat = a.toNat + 64 ∧ Forgets es a)

theorem tracks_fresh : Tracks [] (fresh, []) where
  sub := by simp
  start := fun _ => ⟨rfl, rfl⟩
  top := by simp [fresh]
  sound := by simp [Knows, fresh]
  complete := by simp

variable {s : Window × List UInt64}

theorem Tracks.admits (t : Tracks es s) (id : UInt64) : Admits s.1 id (s.1.admitId id) :=
  Window.admits (fun h => (t.start h).2) id

theorem Tracks.refuse (t : Tracks es s) {id top : UInt64} (htop : s.1.highest = some top) (hid : id.toNat ≤ top.toNat) :
    Tracks (es ++ [id]) s where
  sub := fun a ha => mem_append_left _ (t.sub a ha)
  start := by simp [htop]
  top := by
    intro h hh
    refine ⟨(t.top h hh).1, fun a ha => ?_⟩
    rcases mem_append.mp ha with ha | ha
    · exact (t.top h hh).2 a ha
    · cases htop.symm.trans hh
      exact mem_singleton.mp ha ▸ hid
  sound := t.sound
  complete := by
    intro h a hh ha hlt hle
    refine (t.complete h a hh ha hlt hle).imp_right fun ⟨hw, hf⟩ => ⟨hw, hf.snoc fun top' hmax _ => ?_⟩
    have := le_iff_toNat_le.mp (hmax top (t.sub _ (t.top _ htop).1))
    exact le_iff_toNat_le.mpr (hid.trans this)

theorem Tracks.raise (t : Tracks es s) {id : UInt64} (habove : ∀ top, s.1.highest = some top → top.toNat < id.toNat)
    (hknows : ∀ a, Knows ⟨some id, b⟩ a ↔ id.toNat ≤ a.toNat + 64 ∧
      ∃ top, s.1.highest = some top ∧ id.toNat - top.toNat < 64 ∧ (a = top ∨ Knows s.1 a)) :
    Tracks (es ++ [id]) (⟨some id, b⟩, s.2 ++ [id]) where
  sub := by
    intro a ha
    exact mem_append.mpr ((mem_append.mp ha).imp_left (t.sub a))
  start := by simp
  top := by
    intro h hh
    cases hh
    refine ⟨by simp, fun a ha => ?_⟩
    rcases mem_append.mp ha with ha | ha
    · cases hhigh : s.1.highest with
      | none => simp [(t.start hhigh).1] at ha
      | some top => exact ((t.top top hhigh).2 a ha).trans (habove top hhigh).le
    · rw [mem_singleton.mp ha]
  sound := by
    intro a ha
    obtain ⟨-, top, htop, -, rfl | hold⟩ := (hknows a).mp ha
    · exact mem_append_left _ (t.top _ htop).1
    · exact mem_append_left _ (t.sound a hold)
  complete := by
    intro h a hh ha hlt hle
    cases hh
    rcases mem_append.mp ha with ha | ha
    · rcases hhigh : s.1.highest with _ | top
      · have := t.sub a ha
        simp [(t.start hhigh).1] at this
      have hmax := (t.top top hhigh).2
      have hatop := hmax a (t.sub a ha)
      by_cases hgap : id.toNat - top.toNat < 64
      · refine .inl ((hknows a).mpr ⟨hle, top, hhigh, hgap, ?_⟩)
        rcases hatop.eq_or_lt with heq | hlt'
        · exact .inl (UInt64.toNat_inj.mp heq)
        · have := habove top hhigh
          exact .inr ((t.complete top a hhigh ha hlt' (by omega)).resolve_right fun h => by omega)
      · -- The jump is `width`, and `a` was the highest.
        refine .inr ⟨by omega, es, id, [], rfl, t.sub a ha, fun c hc => ?_, by unfold width; omega, by simp⟩
        exact UInt64.le_iff_toNat_le.mpr ((hmax c hc).trans (by omega))
    · exact absurd hlt (mem_singleton.mp ha ▸ lt_irrefl _)

theorem Tracks.offer (t : Tracks es s) (id : UInt64) : Tracks (es ++ [id]) (offer s id) := by
  have hadm := t.admits id
  unfold Window.offer
  generalize s.1.admitId id = r at hadm
  cases hadm with
  | raise habove hknows => exact t.raise habove hknows
  | refuse htop hle => exact t.refuse htop hle
  | fill htop hlt _ _ hknows =>
    have t' := t.refuse htop hlt.le
    refine ⟨?_, nofun, ?_, ?_, ?_⟩
    · intro a ha
      exact (mem_append.mp ha).elim (t'.sub a) (mem_append_right _)
    · intro h hh
      have := t'.top h (htop.trans hh)
      exact ⟨mem_append_left _ this.1, this.2⟩
    · intro a ha
      exact mem_append.mpr (((hknows a).mp ha).imp (t'.sound a) mem_singleton.mpr)
    · intro h a hh ha hlt hle
      rcases mem_append.mp ha with ha | ha
      · exact (t'.complete h a (htop.trans hh) ha hlt hle).imp_left fun hold => (hknows a).mpr (.inl hold)
      · exact .inl ((hknows a).mpr (.inr (mem_singleton.mp ha)))

theorem tracks_after (es : List UInt64) : Tracks es (after es) :=
  run_history (G := fun _ _ => True) (I := Tracks) tracks_fresh
    (fun es e (t : Tracks es (run offer (fresh, []) es)) _ => t.offer e) es
    (along_of_mem es _ (fun _ _ _ => trivial))

/-! ### When the register is exact -/

theorem Tracks.shouldAdmit_iff (t : Tracks es s) {id top : UInt64} (hh : s.1.highest = some top)
    (hle : id.toNat ≤ top.toNat) : ShouldAdmit s.2 id ↔ top.toNat - id.toNat ≤ width ∧ id ∉ s.2 := by
  constructor
  · rintro (hall | ⟨top', hmem, hmax, _, hw, hnew⟩)
    · have := lt_iff_toNat_lt.mp (hall top (t.top top hh).1)
      omega
    · have h1 := le_iff_toNat_le.mp (hmax top (t.top top hh).1)
      exact ⟨by omega, hnew⟩
  · rintro ⟨hw, hnew⟩
    exact .inr ⟨top, (t.top top hh).1, fun a ha => le_iff_toNat_le.mpr ((t.top top hh).2 a (t.sub a ha)),
      le_iff_toNat_le.mpr hle, hw, hnew⟩

theorem admit_iff_shouldAdmit (hf : ¬ Forgets es id) :
    ((after es).1.admitId id).1 = true ↔ ShouldAdmit (after es).2 id := by
  have t := tracks_after es
  have hadm := t.admits id
  generalize after es = s at t hadm ⊢
  generalize s.1.admitId id = r at hadm ⊢
  cases hadm with
  | raise habove _ =>
    refine iff_of_true rfl (.inl fun a ha => ?_)
    cases hh : s.1.highest with
    | none =>
      have := t.sub a ha
      simp [(t.start hh).1] at this
    | some top => exact lt_of_le_of_lt ((t.top top hh).2 a (t.sub a ha)) (habove top hh)
  | refuse htop hle hout =>
    rw [t.shouldAdmit_iff htop hle]
    refine iff_of_false (by simp) ?_
    rintro ⟨hw, hnew⟩
    rcases hout with rfl | hout | hknown
    · exact hnew (t.top _ htop).1
    · unfold width at hw
      omega
    · exact hnew (t.sound id hknown)
  | fill htop hlt hle hunknown _ =>
    rw [t.shouldAdmit_iff htop hlt.le]
    refine iff_of_true rfl ⟨by unfold width; omega, fun hold => ?_⟩
    exact (t.complete _ id htop hold hlt hle).elim hunknown fun h => hf h.2

theorem mem_offer_of_mem (h : a ∈ s.2) : a ∈ (offer s id).2 := by
  unfold Window.offer
  split_ifs
  · exact mem_append_left _ h
  · exact h

/-- The highest id has jumped `width` above `old`, which is not known. -/
structure Lost (top old : UInt64) (s : Window × List UInt64) : Prop where
  highest : s.1.highest = some top
  unknown : ¬ Knows s.1 old
  admitted : old ∈ s.2

theorem Lost.offer {id : UInt64} (h : Lost top old s) (hle : id.toNat ≤ top.toNat) (hne : id ≠ old) :
    Lost top old (offer s id) := by
  have hadm := Window.admits (w := s.1) (fun hnone => by simp [h.highest] at hnone) id
  refine ⟨?_, ?_, mem_offer_of_mem h.admitted⟩ <;> unfold Window.offer <;> dsimp only <;>
    generalize s.1.admitId id = r at hadm ⊢
  · cases hadm with
    | raise habove => exact absurd (habove top h.highest) (not_lt.mpr hle)
    | refuse => exact h.highest
    | fill htop => exact htop.symm.trans h.highest
  · cases hadm with
    | raise habove => exact absurd (habove top h.highest) (not_lt.mpr hle)
    | refuse => exact h.unknown
    | fill _ _ _ _ hknows => exact fun hold => ((hknows old).mp hold).elim h.unknown hne.symm

theorem lost_after (hold : old ∈ pre) (hmax : ∀ a ∈ pre, a ≤ old)
    (htop : top.toNat = old.toNat + 64) (hmid : ∀ a ∈ mid, a ≤ top) (hnew : old ∉ mid) :
    Lost top old (after (pre ++ top :: mid)) := by
  have t := tracks_after pre
  have hhigh : (after pre).1.highest = some old := by
    rcases hh : (after pre).1.highest with _ | h
    · simp [(t.start hh).1] at hold
    have h1 := (t.top h hh).2 old hold
    have h2 := UInt64.le_iff_toNat_le.mp (hmax h (t.sub h (t.top h hh).1))
    rw [UInt64.toNat_inj.mp (le_antisymm h2 h1)]
  have hjump : Lost top old (offer (after pre) top) := by
    have hadm := t.admits top
    refine ⟨?_, ?_, mem_offer_of_mem (t.top old hhigh).1⟩ <;> unfold Window.offer <;> dsimp only <;>
      generalize (after pre).1.admitId top = r at hadm ⊢
    all_goals cases hadm with
      | raise habove hknows => simp [hknows, hhigh, htop]
      | refuse htop' hle | fill htop' hle => cases hhigh.symm.trans htop'; omega
  have hafter : after (pre ++ top :: mid) = run offer (offer (after pre) top) mid := by
    unfold after
    rw [run_append, run_cons]
  rw [hafter]
  -- Along `mid` no id is above `top` and none is `old`.
  refine run_invariant (I := Lost top old) (G := fun _ id => id.toNat ≤ top.toNat ∧ id ≠ old)
    (fun _ _ h hid => h.offer hid.1 hid.2) mid _ hjump ?_
  exact along_of_mem mid _ fun id hid _ => ⟨UInt64.le_iff_toNat_le.mp (hmid id hid), fun heq => hnew (heq ▸ hid)⟩

/-- **When the window is exact.**  On a sequence of ids offered to a fresh window, every answer
follows the rule and no id is admitted twice iff no id is offered again while the highest id is
the one that jumped exactly `width` above it. -/
theorem exact_iff_noForgottenReplay : Exact ids ↔ NoForgottenReplay ids := by
  constructor
  · rintro ⟨_, hexact⟩ pre old post hids ⟨pre', top, mid, rfl, hold, hmax, htop, hmid⟩
    -- The first time `old` comes back is the one that is wrongly admitted.
    obtain ⟨mid', rest, hsplit, hnew⟩ : ∃ mid' rest, mid ++ old :: post = mid' ++ old :: rest ∧
        old ∉ mid' ∧ ∀ a ∈ mid', a ≤ top := by
      by_cases hin : old ∈ mid
      · obtain ⟨as, bs, rfl, has⟩ := eq_append_cons_of_mem hin
        exact ⟨as, bs ++ old :: post, by simp, has, fun a ha => hmid a (mem_append_left _ ha)⟩
      · exact ⟨mid, post, rfl, hin, hmid⟩
    have hids' : ids = (pre' ++ top :: mid') ++ old :: rest := by
      rw [hids]
      simp [hsplit]
    have hlost := lost_after hold hmax htop hnew.2 hnew.1
    have hiff := hexact _ _ _ hids'
    have htrue : ((after (pre' ++ top :: mid')).1.admitId old).1 = true := by
      have hadmits := (tracks_after (pre' ++ top :: mid')).admits old
      generalize (after (pre' ++ top :: mid')).1.admitId old = r at hadmits ⊢
      cases hadmits with
      | raise | fill => rfl
      | refuse hhigh _ hout =>
        cases hlost.highest.symm.trans hhigh
        unfold width at htop
        rcases hout with rfl | hout | hknown
        · omega
        · omega
        · exact absurd hknown hlost.unknown
    rcases hiff.mp htrue with hall | ⟨_, _, _, _, _, hfresh⟩
    · exact absurd (hall old hlost.admitted) (UInt64.lt_irrefl old)
    · exact hfresh hlost.admitted
  · intro hno
    have hstep : ∀ pre id post, ids = pre ++ id :: post →
        (((after pre).1.admitId id).1 = true ↔ ShouldAdmit (after pre).2 id) :=
      fun pre id post h => admit_iff_shouldAdmit (hno pre id post h)
    refine ⟨?_, hstep⟩
    suffices h : ∀ es, es <+: ids → (after es).2.Nodup from h ids (prefix_refl ids)
    intro es
    induction es using List.reverseRecOn with
    | nil => intro _; simp [after]
    | append_singleton es id ih =>
      rintro ⟨post, hpost⟩
      have hnd := ih ⟨id :: post, by rw [← hpost]; simp⟩
      have hiff := hstep es id post (by rw [← hpost]; simp)
      have e : after (es ++ [id]) = offer (after es) id := by simp [after]
      rw [e]
      unfold Window.offer
      split_ifs with hadm
      · refine nodup_append.mpr ⟨hnd, by simp, ?_⟩
        intro a ha b hb hab
        rw [mem_singleton] at hb
        subst hab hb
        rcases hiff.mp hadm with hall | ⟨_, _, _, _, _, hfresh⟩
        · exact absurd (hall a ha) (UInt64.lt_irrefl a)
        · exact hfresh ha
      · exact hnd

/-- The id `0` is admitted, the highest id jumps to `64`, and `0` is admitted again. -/
theorem not_exact_jump_by_width : ¬ Exact [0, 64, 0] := by
  rintro ⟨hnd, _⟩
  revert hnd
  decide

end Window
end Boreas.Shadowsocks
