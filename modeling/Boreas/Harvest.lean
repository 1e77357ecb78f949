import Boreas.LocalStack

/-! # What a poll does to the handles

Which listeners join the connections (`joined`), which connections are reaped (`finished`), what is reported of both
(`harvest_spec`), and that replenishing only opens vacant slots (`Grown`).  `serialAt` is the opening that a handle
stands for. -/

namespace Boreas.L4

open List
open Smoltcp (lookup_vacant vacant)

def Ended.whose (e : Ended) : ℕ × ℕ := (e.id, e.serial)

namespace LocalStack

variable (s : LocalStack)

section

variable (handle : ℕ)

def serialAt : Option ℕ := (s.sockets.lookup handle).map Opened.serial

def answeredAt : Bool := (s.sockets.lookup handle).any Opened.answered

/-- The handle stands for this opening, and it is a connection. -/
def Live (handle serial : ℕ) : Prop := handle ∈ s.established ∧ s.serialAt handle = some serial

/-- No listener is about to be converted. -/
def AllStay : Prop := ∀ l ∈ s.listeners, s.stays l = true

/-! ### Conversion -/

def tupled : Bool := (s.sockets.lookup handle).any (·.socket.tuple)

def terminated : Terminated := ⟨handle, (s.serialAt handle).getD 0⟩

def joined : List ℕ := s.converted.filter s.tupled

structure Converts (handles : List ℕ) (s s' : LocalStack) : Prop where
  established : s'.established = s.established ++ handles.filter s.tupled
  accepted : s'.accepted = s.accepted ++ (handles.filter s.tupled).map s.terminated
  closed : s'.closed = s.closed
  lookup : ∀ handle, s'.sockets.lookup handle =
    if handle ∈ handles ∧ s.tupled handle = false then none else s.sockets.lookup handle

theorem converts_convert : Converts [handle] s (s.convert handle) := by
  unfold convert
  cases ho : s.sockets.lookup handle with
  | none =>
    have htup : s.tupled handle = false := by
      unfold tupled
      rw [ho]
      rfl
    refine ⟨by simp [htup], by simp [htup], rfl, fun other => ?_⟩
    split_ifs with h
    · rw [mem_singleton.mp h.1, ho]
    · rfl
  | some o =>
    have htup : s.tupled handle = o.socket.tuple := by
      unfold tupled
      rw [ho]
      rfl
    dsimp only
    cases htuple : o.socket.tuple with
    | true =>
      rw [htuple] at htup
      have hser : s.terminated handle = ⟨handle, o.serial⟩ := by
        unfold terminated serialAt
        rw [ho]
        rfl
      refine ⟨by simp [htup], by simp [htup, hser], rfl, fun other => ?_⟩
      rw [if_pos rfl, if_neg]
      rintro ⟨hmem, hnot⟩
      rw [mem_singleton.mp hmem, htup] at hnot
      cases hnot
    | false =>
      rw [htuple] at htup
      refine ⟨by simp [htup], by simp [htup], rfl, fun other => ?_⟩
      rw [if_neg Bool.false_ne_true]
      rw [Table.lookup_erase_eq]
      by_cases heq : other = handle
      · subst heq
        rw [if_pos rfl, if_pos ⟨mem_singleton_self _, htup⟩]
      · rw [if_neg heq, if_neg fun h => heq (mem_singleton.mp h.1)]

theorem converts_foldl (hnodup : handles.Nodup) (s : LocalStack) : Converts handles s (handles.foldl convert s) := by
  induction handles generalizing s with
  | nil => exact ⟨by simp, by simp, rfl, fun handle => by simp⟩
  | cons handle handles ih =>
    rw [nodup_cons] at hnodup
    have hone := converts_convert s handle
    have hrest := ih hnodup.2 (s.convert handle)
    -- the first conversion is not seen by the others
    have hlook : ∀ other ∈ handles, (s.convert handle).sockets.lookup other = s.sockets.lookup other := by
      intro other hother
      rw [hone.lookup, if_neg]
      rintro ⟨hmem, -⟩
      exact hnodup.1 (mem_singleton.mp hmem ▸ hother)
    have htup : ∀ other ∈ handles, (s.convert handle).tupled other = s.tupled other := fun other hother => by
      unfold tupled
      rw [hlook other hother]
    have hfilt : handles.filter (s.convert handle).tupled = handles.filter s.tupled :=
      filter_congr fun other hother => htup other hother
    have hmap : (handles.filter s.tupled).map (s.convert handle).terminated =
        (handles.filter s.tupled).map s.terminated := by
      refine map_congr_left fun other hother => ?_
      unfold terminated serialAt
      rw [hlook other (mem_of_mem_filter hother)]
    have hsplit : (handle :: handles).filter s.tupled = [handle].filter s.tupled ++ handles.filter s.tupled := by
      rw [← filter_append, singleton_append]
    refine ⟨?_, ?_, hrest.closed.trans hone.closed, fun other => ?_⟩
    · rw [foldl_cons, hrest.established, hone.established, hfilt, hsplit, append_assoc]
    · rw [foldl_cons, hrest.accepted, hone.accepted, hfilt, hmap, hsplit, map_append, append_assoc]
    · rw [foldl_cons, hrest.lookup, hone.lookup]
      by_cases hin : other ∈ handles
      · have hne : other ≠ handle := fun heq => hnodup.1 (heq ▸ hin)
        simp [hne, htup other hin]
      · simp [hin]

/-! ### Reaping -/

def openingOf : ℕ × ℕ := (handle, (s.serialAt handle).getD 0)

end

structure Reaps (handles : List ℕ) (s s' : LocalStack) : Prop where
  established : ∀ handle, handle ∈ s'.established ↔ handle ∈ s.established ∧ handle ∉ handles
  accepted : s'.accepted = s.accepted
  closed : s'.closed.map Ended.whose = s.closed.map Ended.whose ++ handles.map s.openingOf
  lookup : ∀ handle, s'.sockets.lookup handle = if handle ∈ handles then none else s.sockets.lookup handle

variable {s : LocalStack}

theorem reaps_reap (h : Books [] s) (hmem : handle ∈ s.established) : Reaps [handle] s (s.reap handle) := by
  obtain ⟨o, ho⟩ := Option.isSome_iff_exists.mp ((h.exists_iff handle).mpr (mem_append_right _ hmem))
  unfold reap
  rw [ho]
  refine ⟨fun other => ?_, rfl, ?_, fun other => ?_⟩
  · rw [h.nodup_established.mem_erase_iff, mem_singleton, and_comm]
  · unfold openingOf serialAt
    rw [map_append, map_singleton, map_singleton, ho]
    rfl
  · rw [Table.lookup_erase_eq]
    simp

theorem reaps_foldl (hnodup : handles.Nodup) (h : Books [] s)
    (hsub : ∀ handle ∈ handles, handle ∈ s.established) : Reaps handles s (handles.foldl reap s) := by
  induction handles generalizing s with
  | nil => exact ⟨fun handle => by simp, rfl, by simp, fun handle => by simp⟩
  | cons handle handles ih =>
    rw [nodup_cons] at hnodup
    have hmem := hsub handle mem_cons_self
    have hone := reaps_reap h hmem
    have hne : ∀ other ∈ handles, other ≠ handle := fun other hother heq => hnodup.1 (heq ▸ hother)
    have hrest := ih hnodup.2 (h.reap hmem) fun other hother =>
      (hone.established other).mpr ⟨hsub other (mem_cons_of_mem _ hother), by simpa using hne other hother⟩
    have hser : handles.map (s.reap handle).openingOf = handles.map s.openingOf := by
      refine map_congr_left fun other hother => ?_
      unfold openingOf serialAt
      rw [hone.lookup, if_neg (by simpa using hne other hother)]
    refine ⟨fun other => ?_, hrest.accepted.trans hone.accepted, ?_, fun other => ?_⟩
    · rw [foldl_cons, hrest.established, hone.established, mem_singleton, mem_cons, not_or, and_assoc]
    · rw [foldl_cons, hrest.closed, hone.closed, hser, append_assoc]
      rfl
    · rw [foldl_cons, hrest.lookup, hone.lookup]
      by_cases hin : other ∈ handles <;> simp [hin]

/-! ### The harvest -/

def reaped (s : LocalStack) : List ℕ := (s.established ++ s.joined).filter fun handle => s.stateOf handle = some .closed

structure Harvests (s s' : LocalStack) : Prop where
  established : ∀ handle, handle ∈ s'.established ↔
    (handle ∈ s.established ∨ handle ∈ s.joined) ∧ s.stateOf handle ≠ some .closed
  accepted : s'.accepted = s.accepted ++ s.joined.map s.terminated
  closed : s'.closed.map Ended.whose = s.closed.map Ended.whose ++ s.reaped.map s.openingOf
  lookup : ∀ handle o, s'.sockets.lookup handle = some o → s.sockets.lookup handle = some o
  gone : ∀ handle ∈ s.reaped, s'.sockets.lookup handle = none

theorem Books.nodup_converted (h : Books [] s) : s.converted.Nodup := by
  have hnodup := h.split.nodup
  rw [append_assoc] at hnodup
  exact (nodup_append.mp (nodup_append.mp hnodup).2.1).1

theorem Books.converted_notMem (h : Books [] s) (hmem : handle ∈ s.converted) : handle ∉ s.established := by
  have hnodup := h.split.nodup
  rw [append_assoc] at hnodup
  exact fun hin => (nodup_append.mp (nodup_append.mp hnodup).2.1).2.2 handle hmem handle hin rfl

theorem harvests_harvest (h : Books [] s) : Harvests s s.harvest := by
  have hconv : Converts s.converted s s.convertAll := by
    have hfold := converts_foldl h.nodup_converted { s with listeners := s.listeners.filter s.stays }
    exact { hfold with }
  have hsame : ∀ handle ∈ s.established ++ s.joined,
      s.convertAll.sockets.lookup handle = s.sockets.lookup handle := by
    intro handle hmem
    rw [hconv.lookup, if_neg]
    rintro ⟨hin, htup⟩
    obtain hmem | hmem := mem_append.mp hmem
    · exact h.converted_notMem hin hmem
    · rw [of_mem_filter hmem] at htup
      cases htup
  have hfin : s.convertAll.finished = s.reaped := by
    unfold finished reaped
    rw [hconv.established]
    refine filter_congr fun handle hmem => ?_
    unfold stateOf
    rw [hsame handle hmem]
  have hreaps : Reaps s.reaped s.convertAll s.harvest := by
    have hfold := reaps_foldl (h.convertAll.nodup_established.filter fun handle =>
      s.convertAll.stateOf handle = some .closed) h.convertAll fun _ hmem => mem_of_mem_filter hmem
    rw [show s.convertAll.established.filter (fun handle => s.convertAll.stateOf handle = some .closed) = s.reaped from
      hfin] at hfold
    unfold harvest
    rw [hfin]
    exact hfold
  have hreapedMem : ∀ handle, handle ∈ s.reaped ↔
      (handle ∈ s.established ∨ handle ∈ s.joined) ∧ s.stateOf handle = some .closed := by
    intro handle
    unfold reaped
    rw [mem_filter, mem_append, decide_eq_true_iff]
  refine ⟨fun handle => ?_, ?_, ?_, fun handle o ho => ?_, fun handle hmem => ?_⟩
  · rw [hreaps.established, hconv.established, hreapedMem, mem_append]
    tauto
  · rw [hreaps.accepted, hconv.accepted]
    rfl
  · rw [hreaps.closed, hconv.closed]
    congr 1
    refine map_congr_left fun handle hmem => ?_
    unfold openingOf serialAt
    rw [hsame handle (mem_of_mem_filter hmem)]
  · rw [hreaps.lookup, hconv.lookup] at ho
    split_ifs at ho
    exact ho
  · rw [hreaps.lookup, if_pos hmem]

/-! ### New listeners -/

/-- The connections and what is told of them stay. -/
structure Keeps (s s' : LocalStack) : Prop where
  established : s'.established = s.established
  accepted : s'.accepted = s.accepted
  closed : s'.closed = s.closed
  live : ∀ {handle serial}, s.Live handle serial → s'.Live handle serial

structure Grown (s s' : LocalStack) : Prop where
  established : s'.established = s.established
  accepted : s'.accepted = s.accepted
  closed : s'.closed = s.closed
  stays : s.AllStay → s'.AllStay
  old : ∀ handle o, s.sockets.lookup handle = some o → s'.sockets.lookup handle = some o
  new : ∀ handle o, s'.sockets.lookup handle = some o →
    s.sockets.lookup handle = some o ∨ s.sockets.lookup handle = none ∧ o.answered = false

theorem Grown.refl (s : LocalStack) : Grown s s := ⟨rfl, rfl, rfl, id, fun _ _ h => h, fun _ _ h => .inl h⟩

theorem Grown.trans (h : Grown s s') (h' : Grown s' s'') : Grown s s'' where
  established := h'.established.trans h.established
  accepted := h'.accepted.trans h.accepted
  closed := h'.closed.trans h.closed
  stays := h'.stays ∘ h.stays
  old := fun handle o ho => h'.old handle o (h.old handle o ho)
  new := fun handle o ho => by
    obtain ho | ⟨hnone, hans⟩ := h'.new handle o ho
    · exact h.new handle o ho
    refine .inr ⟨?_, hans⟩
    rcases hlook : s.sockets.lookup handle with _ | o'
    · rfl
    rw [h.old handle o' hlook] at hnone
    cases hnone

theorem Grown.keeps (h : Grown s s') : Keeps s s' := by
  refine ⟨h.established, h.accepted, h.closed, fun ⟨hin, hser⟩ => ⟨h.established ▸ hin, ?_⟩⟩
  obtain ⟨o, ho, rfl⟩ := Option.map_eq_some_iff.mp hser
  rw [serialAt, h.old _ o ho]
  rfl

variable [Smoltcp]

theorem grown_addListener (s : LocalStack) (port : ℕ) : Grown s (s.addListener port).1 := by
  unfold addListener
  split_ifs
  · exact .refl s
  · exact .refl s
  refine ⟨rfl, rfl, rfl, fun hstays l hl => ?_, fun handle o ho => ?_, fun handle o ho => ?_⟩
  · unfold stays stateOf
    rw [Table.lookup_insert_eq]
    split_ifs with heq
    · rfl
    · obtain hl | hl := mem_append.mp hl
      · exact hstays l hl
      · rw [mem_singleton.mp hl] at heq
        exact absurd rfl heq
  · have hne : handle ≠ vacant s.sockets := fun heq => by
      rw [heq, lookup_vacant] at ho
      cases ho
    rw [Table.lookup_insert_eq, if_neg hne]
    exact ho
  · rw [Table.lookup_insert_eq] at ho
    split_ifs at ho with heq
    · cases ho
      exact .inr ⟨heq ▸ lookup_vacant s.sockets, rfl⟩
    · exact .inl ho

theorem grown_replenish (ports : List ℕ) (s : LocalStack) : Grown s (replenish ports s) :=
  replenish_rel Grown.refl Grown.trans (fun port _ s => grown_addListener s port) s

theorem grown_push (s : LocalStack) (pkt : Bytes) : Grown s (s.push pkt) := by
  unfold push
  split
  · split_ifs
    · unfold want
      have hask : ∀ port, Grown s (s.ask port) :=
        fun port => ⟨rfl, rfl, rfl, fun h => h, fun _ _ h => h, fun _ _ h => .inl h⟩
      split_ifs
      · exact (hask _).trans (grown_addListener _ _)
      · exact hask _
    · exact .refl s
  · exact .refl s

end LocalStack

end Boreas.L4
