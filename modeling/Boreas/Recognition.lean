import Boreas.Session

/-! # Recognition and replay

`introduce` is asked again as the opening grows, and what it has recognised stays recognised (`introduce_append`).
What `peek` has read is put back in front of the stream by `Prefixed` (egress/mod.rs).  `recognised_replayed` says of
both that neither the reads of `peek` nor those of the stream's next reader matter. -/

namespace Boreas.Session

open List Runs
open Http (ascii)

/-- httparse keeps to a Complete or an error when more bytes follow. -/
def Parsers.Final (P : Parsers) : Prop :=
  ∀ bytes more, P.request bytes ≠ .incomplete → P.request (bytes ++ more) = P.request bytes

variable {P : Parsers} {opening : Bytes} {reads : List Bytes}

theorem introduce_append (hfinal : P.Final) (hknown : introduce P bytes ≠ .incomplete) (more : Bytes) :
    introduce P (bytes ++ more) = introduce P bytes := by
  match bytes with
  | [] | [_] | [_, _] => exact absurd rfl hknown
  | content :: major :: minor :: rest =>
    unfold introduce at hknown ⊢
    simp only [cons_append] at hknown ⊢
    split_ifs at hknown ⊢
    · have hreq := hfinal (content :: major :: minor :: rest) more fun hnone => hknown (by rw [requestHead, hnone])
      rw [requestHead, requestHead, ← hreq]
      rfl
    cases hread : Reader.vectorU16 rest with
    | none =>
      rw [hread] at hknown
      exact absurd rfl hknown
    | some read => rw [Reader.vectorU16_append hread more]

/-- `peek` stops at what it recognises, at the bound or at the end of the reads. -/
theorem peek_stops (buf : Bytes) (reads : List Bytes) : introduce P (peek P buf reads).2.1 ≠ .incomplete ∨
    maxRecord ≤ (peek P buf reads).2.1.length ∨ (peek P buf reads).2.2 = [] := by
  induction reads generalizing buf with
  | nil => exact .inr (.inr rfl)
  | cons chunk reads ih =>
    unfold peek
    split_ifs with hmore
    · exact ih (buf ++ chunk)
    · rw [not_and_or, not_lt] at hmore
      exact hmore.imp_right .inl

theorem peek_recognises (hfinal : P.Final) (hopen : opening <+: reads.flatten) (hshort : opening.length < maxRecord)
    (hwhole : introduce P opening = .incomplete → opening = reads.flatten) :
    (peek P [] reads).1 = introduce P opening := by
  obtain ⟨hverd, hbytes⟩ := peek_eq (P := P) [] reads
  rw [nil_append] at hbytes
  have hpeeked : (peek P [] reads).2.1 <+: reads.flatten := ⟨_, hbytes⟩
  rw [hverd]
  rcases prefix_or_prefix_of_prefix hopen hpeeked with hle | hle
  · by_cases hknown : introduce P opening = .incomplete
    · rw [hwhole hknown] at hle ⊢
      rw [hle.eq_of_length_le hpeeked.length_le]
    · obtain ⟨more, hmore⟩ := hle
      rw [← hmore, introduce_append hfinal hknown]
  · rcases peek_stops (P := P) [] reads with hknown | hlong | hall
    · obtain ⟨more, hmore⟩ := hle
      rw [← hmore, introduce_append hfinal hknown]
    · have := hle.length_le
      omega
    · rw [hall, flatten_nil, append_nil] at hbytes
      rw [hle.eq_of_length_le (hbytes ▸ hopen.length_le)]

/-! ### Prefixed streams -/

/-- The bytes that were read before the stream was handed on, and those that are still to come. -/
structure Prefixed where
  front : Bytes
  inner : Bytes

/-- A read into so many bytes, of which so many have arrived of the inner stream. -/
structure Prefixed.Read where
  size : ℕ
  arrived : ℕ

def Prefixed.pollRead (s : Prefixed) (r : Read) : Prefixed × Bytes :=
  if s.front ≠ [] then ({ s with front := s.front.drop r.size }, s.front.take r.size)
  else ({ s with inner := s.inner.drop (min r.size r.arrived) }, s.inner.take (min r.size r.arrived))

/-- A read, with all that the reads have delivered. -/
def Prefixed.deliver (acc : Prefixed × Bytes) (r : Read) : Prefixed × Bytes :=
  ((acc.1.pollRead r).1, acc.2 ++ (acc.1.pollRead r).2)

def Prefixed.left (s : Prefixed) : Bytes := s.front ++ s.inner

theorem Prefixed.pollRead_left (s : Prefixed) (r : Read) : (s.pollRead r).2 ++ (s.pollRead r).1.left = s.left ∧
    (0 < min r.size r.arrived → (s.pollRead r).1.left.length ≤ s.left.length - 1) := by
  unfold pollRead left
  split_ifs with hfront
  · have := length_pos_iff.mpr hfront
    refine ⟨by simp [← append_assoc], fun hpos => ?_⟩
    simp only [length_append, length_drop]
    omega
  · rw [not_ne_iff.mp hfront]
    refine ⟨by simp, fun hpos => ?_⟩
    simp only [length_append, length_drop, length_nil]
    omega

theorem Prefixed.run_deliver (rs : List Read) (s : Prefixed) (out : Bytes) :
    (run deliver (s, out) rs).2 ++ (run deliver (s, out) rs).1.left = out ++ s.left ∧
      ((∀ r ∈ rs, 0 < min r.size r.arrived) →
        (run deliver (s, out) rs).1.left.length ≤ s.left.length - rs.length) := by
  induction rs generalizing s out with
  | nil => exact ⟨rfl, fun _ => le_refl _⟩
  | cons r rs ih =>
    obtain ⟨hbytes, hshorter⟩ := s.pollRead_left r
    obtain ⟨hrest, hlen⟩ := ih (s.pollRead r).1 (out ++ (s.pollRead r).2)
    refine ⟨?_, fun hall => ?_⟩
    · rw [run_cons, deliver, hrest, append_assoc, hbytes]
    · have := hshorter (hall r mem_cons_self)
      refine (hlen fun r' hr' => hall r' (mem_cons_of_mem _ hr')).trans ?_
      rw [length_cons]
      omega

/-- **What is recognised is final, and what was read is replayed.** The first answer of `introduce` stays; that of
`peek` is the same for all ways to read an opening shorter than the bound; and the reads that follow deliver the
peeked bytes and then the rest of the stream. -/
theorem recognised_replayed (hfinal : P.Final) (reads : List Bytes) (rest : Bytes) :
    (∀ bytes more, introduce P bytes ≠ .incomplete → introduce P (bytes ++ more) = introduce P bytes) ∧
      (∀ opening, opening <+: reads.flatten → opening.length < maxRecord →
        (introduce P opening = .incomplete → opening = reads.flatten) →
          (peek P [] reads).1 = introduce P opening) ∧
      ∀ rs, let delivered := (run Prefixed.deliver
          (⟨(peek P [] reads).2.1, (peek P [] reads).2.2.flatten ++ rest⟩, []) rs).2
        delivered <+: reads.flatten ++ rest ∧ ((∀ r ∈ rs, 0 < min r.size r.arrived) →
          (reads.flatten ++ rest).length ≤ rs.length → delivered = reads.flatten ++ rest) := by
  refine ⟨fun _ more hknown => introduce_append hfinal hknown more,
    fun _ hopen hshort hwhole => peek_recognises hfinal hopen hshort hwhole, fun rs => ?_⟩
  obtain ⟨hbytes, hlen⟩ := Prefixed.run_deliver rs
    ⟨(peek P [] reads).2.1, (peek P [] reads).2.2.flatten ++ rest⟩ []
  have hleft : Prefixed.left ⟨(peek P [] reads).2.1, (peek P [] reads).2.2.flatten ++ rest⟩ =
      reads.flatten ++ rest := by
    rw [Prefixed.left, ← append_assoc, (peek_eq (P := P) [] reads).2, nil_append]
  rw [hleft, nil_append] at hbytes
  rw [hleft] at hlen
  refine ⟨⟨_, hbytes⟩, fun hall hlong => ?_⟩
  have hnil := length_eq_zero_iff.mp (Nat.le_zero.mp ((hlen hall).trans (Nat.sub_eq_zero_of_le hlong).le))
  rw [hnil, append_nil] at hbytes
  exact hbytes

/-- A parser of requests without fields, which end at their empty line. -/
def emptyLine : Parsers where
  request bytes := if ascii "\r\n\r\n" <:+: bytes then .complete [] else .incomplete
  authority _ := false

theorem final_emptyLine : emptyLine.Final := by
  intro bytes more hknown
  dsimp only [emptyLine] at hknown ⊢
  by_cases hline : ascii "\r\n\r\n" <:+: bytes
  · rw [if_pos hline, if_pos (hline.trans (prefix_append bytes more).isInfix)]
  · exact absurd (if_neg hline) hknown

/-- An empty record in two reads with a byte after it, and a request in two reads with more after it. -/
theorem recognised_replayed_reads :
    (peek emptyLine [] [[0x16, 3], [1, 0, 0, 9]]).1 = introduce emptyLine [0x16, 3, 1, 0, 0] ∧
      (peek emptyLine [] [ascii "GET / HTTP/1.1\r\n", ascii "\r\nGET"]).1 = .http none := by
  refine ⟨(recognised_replayed final_emptyLine [[0x16, 3], [1, 0, 0, 9]] []).2.1 [0x16, 3, 1, 0, 0] (by decide)
    (by decide) (by decide), ?_⟩
  exact ((recognised_replayed final_emptyLine _ []).2.1 (ascii "GET / HTTP/1.1\r\n\r\n") (by decide) (by decide)
    (by decide)).trans rfl

end Boreas.Session
