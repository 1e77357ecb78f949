import Boreas.Resolver

/-! # Whose reply a query is served

The memo of replies is keyed by name and type only, and it keeps truncated replies.  Over every run of the resolver:
`sameQuestion_run` and `flagsRespected_run` for runs in which the answered queries with one key agree in what the key
leaves out, `untruncated_run` for upstreams whose truncated replies are failures, and `noneStale_run` for runs that
reload only while no query is under way.  Beside each is a run without the condition. -/

namespace Boreas.Resolving

open Dns List Message Option Resolver Runs

def Resolver.asking (r : Resolver) (i : ℕ) : Option Message :=
  match r.tasks[i]? with
  | some (asked, .spawned) => (parse asked.query.payload).toOption
  | _ => none

theorem asking_eq {r : Resolver}
    (htask : r.tasks[i]? = some (asked, .spawned)) (hparse : parse asked.query.payload = .ok request) :
    r.asking i = some request := by
  unfold asking
  rw [htask]
  dsimp only
  rw [hparse]
  rfl

/-! ### Queries with one key -/

section
variable (R : Message → Message → Prop)

/-- The queries answered so far that have the key of the query that looks into the memo are related to it. -/
def Agreeing (r : Resolver) : Event → Prop
  | .look i _ _ => ∀ request ∈ r.asking i, ∀ t ∈ r.received, keyOf t.request = keyOf request → R t.request request
  | _ => True

instance [DecidableRel R] (r : Resolver) : DecidablePred (Agreeing R r)
  | .look i _ _ => inferInstanceAs (Decidable (∀ request ∈ r.asking i, ∀ t ∈ r.received,
      keyOf t.request = keyOf request → R t.request request))
  | .reload _ => isTrue trivial
  | .check _ => isTrue trivial
  | .spawn => isTrue trivial
  | .reply _ _ => isTrue trivial

/-- Every query served from the memo is related to the one whose reply it is served. -/
def Related (r : Resolver) : Prop := ∀ hit ∈ r.hits, ∃ t, Traced r.received hit t ∧ R t.request hit.request

variable {R}

theorem Related.mono (h : Related R r) (hhits : r'.hits = r.hits) (hsub : r.received ⊆ r'.received) :
    Related R r' := by
  intro hit hmem
  rw [hhits] at hmem
  obtain ⟨t, htr, hrel⟩ := h hit hmem
  exact ⟨t, htr.mono hsub, hrel⟩

theorem Related.step (hsound : Sound r) (h : Related R r) (hguard : Agreeing R r e)
    (hmove : Move r e r') : Related R r' := by
  cases hmove with
  | hit htask hparse hget hreply =>
    intro hit hmem
    obtain hmem | hmem := mem_append.mp hmem
    · exact h hit hmem
    · obtain rfl := mem_singleton.mp hmem
      obtain ⟨t, htr⟩ := hsound.traced _ hget hreply
      exact ⟨t, htr, hguard _ (asking_eq htask hparse) t htr.mem htr.key⟩
  | dropped | kept => exact h.mono rfl (subset_append_left _ _)
  | idle | reload | checked | cleared | spawned | ended | miss | failed => exact h

theorem related_run (kind : Upstream) (pol : HostPolicy) (es : List Event)
    (h : Along step (Agreeing R) (.start kind pol) es) : Related R (run step (.start kind pol) es) :=
  (run_invariant (I := fun r => Sound r ∧ Related R r)
    (fun r e hr hguard => ⟨hr.1.step (move_step r e), hr.2.step hr.1 hguard (move_step r e)⟩) es _
    ⟨sound_start kind pol, fun _ hmem => absurd hmem not_mem_nil⟩ h).2

end

variable (r : Resolver)

/-- What a query is served from the memo was received for a query that asked the same question. -/
def SameQuestion : Prop :=
  ∀ hit ∈ r.hits, ∃ t ∈ r.received, hit.source = some t ∧ t.reply = hit.reply ∧
    t.request.question = hit.request.question

def sameClass (answered asked : Message) : Prop := answered.question.qclass = asked.question.qclass

instance : DecidableRel sameClass := fun answered asked =>
  inferInstanceAs (Decidable (answered.question.qclass = asked.question.qclass))

theorem question_eq {q' : Question} (hname : q.name = q'.name) (htype : q.qtype = q'.qtype)
    (hclass : q.qclass = q'.qclass) : q = q' := by
  obtain ⟨name', qtype', qclass'⟩ := q'
  cases hname
  cases htype
  cases hclass
  rfl

variable (kind : Upstream)

variable (policy : HostPolicy)

variable (es : List Event)

/-- **The memo answers the question that was asked** in every run in which the queries answered for a name and a type
have the class of a query that looks for them. -/
theorem sameQuestion_run
    (h : Along step (Agreeing sameClass) (.start kind policy) es) :
    SameQuestion (run step (.start kind policy) es) := by
  intro hit hmem
  obtain ⟨t, htr, hclass⟩ := related_run kind policy es h hit hmem
  obtain ⟨hname, htype⟩ := Prod.mk.inj htr.key
  exact ⟨t, htr.mem, htr.source, htr.reply, question_eq hname htype hclass⟩

/-- A query for the addresses of `q`, by its flags, its class and the records behind the question. -/
def asksQ (flags : UInt8) (qclass : UInt8) (additional : Bytes) : DnsQuery :=
  ⟨⟨.v4 0x0a000001#32, 5353⟩, ⟨.v4 0x0a000002#32, 53⟩,
    [0, 7, 1, flags, 0, 1, 0, 0, 0, 0, 0, if additional = [] then 0 else 1, 1, 113, 0, 0, 1, 0, qclass] ++ additional⟩

def repliesQ (qclass : UInt8) : Bytes :=
  [0, 7, 129, 128, 0, 1, 0, 1, 0, 0, 0, 0, 1, 113, 0, 0, 1, 0, qclass, 192, 12, 0, 1, 0, qclass, 0, 0, 0, 60, 0, 4,
    192, 0, 2, 1]

def asks (query : DnsQuery) (secs : ℕ) : List Event := [.check query, .spawn, .look 0 true (Instant.ofSecs secs)]

/-- Two queries, the first of which finds nothing and is answered by the upstream. -/
def asksTwice (first second : DnsQuery) (reply : Bytes) : List Event :=
  asks first 0 ++ [.reply 0 (some reply)] ++ asks second 1

theorem sameQuestion_asksTwice :
    SameQuestion (run step (.start .do53 .new) (asksTwice (asksQ 0 1 []) (asksQ 0 1 []) (repliesQ 1))) ∧
      (run step (.start .do53 .new) (asksTwice (asksQ 0 1 []) (asksQ 0 1 []) (repliesQ 1))).hits.length = 1 :=
  ⟨sameQuestion_run _ _ _ (by decide), by decide⟩

/-- A query of class 3 is served the reply to one of class 1. -/
theorem class_ignored : (run step (.start .do53 .new) (asksTwice (asksQ 0 1 []) (asksQ 0 3 []) (repliesQ 1))).hits.map
        (fun hit => (hit.request.question.qclass, hit.source.map fun t => t.request.question.qclass, hit.answer.isSome)) =
      [(3, some 1, true)] := by
  decide +kernel

/-! ### Validation -/

/-- The DO bit of the sender's OPT record, which is found as `udp_payload_size` finds it.  No code reads it. -/
def dnssecOk (m : Message) : Bool :=
  if 65536 ≤ m.answerCount + m.authorityCount then false
  else
    match sectionEnd m.bytes (m.answerCount + m.authorityCount) m.answersAt with
    | .error _ => false
    | .ok at_ =>
      ((readable m.bytes m.additionalCount at_).find? fun record => record.rtype.toWire = opt).any fun record =>
        record.ttl.testBit 15

/-- The reply to one query serves another: it was validated if the other asks for that, and has the signatures that the
other asks for. -/
def flagsServe (answered asked : Message) : Prop :=
  (asked.checkingDisabled = false → answered.checkingDisabled = false) ∧ (dnssecOk asked = true → dnssecOk answered = true)

instance : DecidableRel flagsServe := fun answered asked =>
  inferInstanceAs (Decidable ((asked.checkingDisabled = false → answered.checkingDisabled = false) ∧
    (dnssecOk asked = true → dnssecOk answered = true)))

/-- What a query is served from the memo was received for a query whose flags serve it. -/
def FlagsRespected : Prop :=
  ∀ hit ∈ r.hits, ∃ t ∈ r.received, hit.source = some t ∧ t.reply = hit.reply ∧ flagsServe t.request hit.request

/-- **The memo respects the flags of a query** in every run in which the flags of the queries answered for a name and a
type serve a query that looks for them. -/
theorem flagsRespected_run
    (h : Along step (Agreeing flagsServe) (.start kind policy) es) :
    FlagsRespected (run step (.start kind policy) es) := by
  intro hit hmem
  obtain ⟨t, htr, hflags⟩ := related_run kind policy es h hit hmem
  exact ⟨t, htr.mem, htr.source, htr.reply, hflags⟩

def optDo : Bytes := [0, 0, 41, 4, 208, 0, 0, 128, 0, 0, 0]

theorem flagsRespected_asksTwice : FlagsRespected (run step (.start .do53 .new)
        (asksTwice (asksQ 0 1 optDo) (asksQ 16 1 []) (repliesQ 1))) ∧ (run step (.start .do53 .new)
        (asksTwice (asksQ 0 1 optDo) (asksQ 16 1 []) (repliesQ 1))).hits.length = 1 :=
  ⟨flagsRespected_run _ _ _ (by decide), by decide⟩

/-- A query that wants validation is served the reply to one that had it disabled, and one that wants signatures the reply
to one that did not ask for them. -/
theorem flags_ignored :
    (run step (.start .do53 .new) (asksTwice (asksQ 16 1 []) (asksQ 0 1 []) (repliesQ 1))).hits.map
        (fun hit => (hit.request.checkingDisabled, hit.source.map fun t => t.request.checkingDisabled,
          hit.answer.isSome)) = [(false, some true, true)] ∧
      (run step (.start .do53 .new) (asksTwice (asksQ 0 1 []) (asksQ 0 1 optDo) (repliesQ 1))).hits.map
        (fun hit => (dnssecOk hit.request, hit.source.map fun t => dnssecOk t.request, hit.answer.isSome)) =
      [(true, some false, true)] := by
  decide +kernel

/-! ### Truncated replies -/

/-- `Do53Upstream::query`, given what comes of the two transports: a truncated reply is handed back if TCP fails. -/
def do53Query (overUdp overTcp : Option Bytes) : Option Bytes :=
  overUdp.map fun reply =>
    if (parse reply).toOption.any isTruncated then overTcp.getD reply else reply

def isTruncatedReply (reply : Bytes) : Bool := (parse reply).toOption.any isTruncated

/-- The reply reports a failure, or has answers that cannot be read. -/
def fails (m : Message) : Bool :=
  match m.rcode with
  | .noError => m.answers.toOption.isNone
  | .nameError => false
  | _ => true

theorem lifetime_eq_none_iff (m : Message) : lifetime m = none ↔ fails m = true := by
  unfold lifetime fails
  cases m.rcode with
  | noError => cases m.answers <;> simp [Except.toOption]
  | _ => simp

def TruncatedFails (_ : Resolver) : Event → Prop
  | .reply _ (some reply) => isTruncatedReply reply = true → (parse reply).toOption.any fails = true
  | _ => True

instance (r : Resolver) : DecidablePred (TruncatedFails r)
  | .reply _ (some reply) => inferInstanceAs (Decidable (isTruncatedReply reply = true →
      (parse reply).toOption.any fails = true))
  | .reply _ none => isTrue trivial
  | .look _ _ _ => isTrue trivial
  | .reload _ => isTrue trivial
  | .check _ => isTrue trivial
  | .spawn => isTrue trivial

theorem expiry_of_fails (h : (parse reply).toOption.any fails = true) : expiry reply now = none := by
  unfold expiry
  obtain ⟨m, hm, hfails⟩ := (any_eq_true _ _).mp h
  rw [hm, bind_some, (lifetime_eq_none_iff m).mpr hfails]
  rfl

def Untruncated : Prop := ∀ hit ∈ r.hits, isTruncatedReply hit.reply = false

def ReceivedFails : Prop :=
  ∀ t ∈ r.received, isTruncatedReply t.reply = true → (parse t.reply).toOption.any fails = true

theorem ReceivedFails.step {r : Resolver} (h : ReceivedFails r) (hguard : TruncatedFails r e)
    (hmove : Move r e r') : ReceivedFails r' := by
  cases hmove with
  | dropped | kept =>
    intro t ht
    obtain ht | ht := mem_append.mp ht
    · exact h t ht
    · obtain rfl := mem_singleton.mp ht
      exact hguard
  | idle | reload | checked | cleared | spawned | ended | hit | miss | failed => exact h

theorem cache_receive {r : Resolver} (hguard : TruncatedFails r (.reply i (some reply)))
    (htrunc : isTruncatedReply reply = true) : (r.step (.reply i (some reply))).cache = r.cache := by
  generalize hr' : r.step (.reply i (some reply)) = r'
  have hmove := hr' ▸ move_step r (.reply i (some reply))
  cases hmove with
  | kept htask hexp => rw [expiry_of_fails (hguard htrunc)] at hexp; cases hexp
  | idle | dropped => rfl

/-- **A truncated reply is never served from the memo** in every run whose truncated replies fail; such a reply leaves
the memo as it was, so the next query asks the upstream again. -/
theorem untruncated_run
    (h : Along step TruncatedFails (.start kind policy) es) : Untruncated (run step (.start kind policy) es) ∧
      ∀ pre i reply post, es = pre ++ .reply i (some reply) :: post → isTruncatedReply reply = true →
        (run step (.start kind policy) (pre ++ [.reply i (some reply)])).cache =
          (run step (.start kind policy) pre).cache := by
  constructor
  · have hfails : ReceivedFails (run step (.start kind policy) es) :=
      run_invariant (fun r e hr hguard => hr.step hguard (move_step r e)) es _
        (fun _ hmem => absurd hmem not_mem_nil) h
    intro hit hmem
    obtain ⟨-, t, htr⟩ := (sound_run kind policy es).hits hit hmem
    obtain ⟨now, hkept⟩ := htr.kept
    rw [← htr.reply]
    refine Bool.eq_false_iff.mpr fun htrunc => ?_
    rw [expiry_of_fails (hfails t htr.mem htrunc)] at hkept
    cases hkept
  · rintro pre i reply post rfl htrunc
    rw [run_snoc]
    exact cache_receive h.guard htrunc

def truncatedQ (rcode : UInt8) : Bytes := [0, 7, 131, 128 + rcode, 0, 1, 0, 0, 0, 0, 0, 0, 1, 113, 0, 0, 1, 0, 1]

theorem untruncated_asksTwice : Untruncated (run step (.start .do53 .new)
        (asksTwice (asksQ 0 1 []) (asksQ 0 1 []) (truncatedQ 2))) ∧ isTruncatedReply (truncatedQ 2) = true :=
  ⟨(untruncated_run _ _ _ (by decide)).1, by decide⟩

/-- TCP fails, and the truncated reply is served to the next query. -/
theorem truncated_remembered :
    do53Query (some (truncatedQ 0)) none = some (truncatedQ 0) ∧ (run step (.start .do53 .new)
        (asksTwice (asksQ 0 1 []) (asksQ 0 1 []) (truncatedQ 0))).hits.map
          (fun hit => (isTruncatedReply hit.reply, hit.answer.isSome)) = [(true, true)] := by
  decide +kernel

/-! ### Reloads -/

/-- No query is served a reply that was remembered under an earlier policy than its own: neither one that was stored
before the reload, nor one of a query that had its policy from before. -/
def NoneStale : Prop :=
  ∀ hit ∈ r.hits, ∃ t, hit.source = some t ∧ hit.asked.version ≤ t.asked.version ∧ hit.asked.version ≤ t.stored

/-- The policy is reloaded while no query is under way, neither taken by the loop nor spawned. -/
def BetweenQueries : Event → Prop
  | .reload _ => r.taken.isNone = true ∧ r.tasks.length = 0
  | _ => True

instance (r : Resolver) : DecidablePred (BetweenQueries r)
  | .reload _ => inferInstanceAs (Decidable (r.taken.isNone = true ∧ r.tasks.length = 0))
  | .check _ => isTrue trivial
  | .spawn => isTrue trivial
  | .look _ _ _ => isTrue trivial
  | .reply _ _ => isTrue trivial

/-- A reply that was stored under the policy of version `version`, for a query with that policy. -/
def UnderPolicy (version : ℕ) (_ : Name × RecordType) (t : Received) (_ : Cached) : Prop :=
  t.asked.version = version ∧ t.stored = version

/-- The queries under way have the policy of the channel, and so do the remembered replies once the loop has asked
whether it changed. -/
structure Current (r : Resolver) : Prop where
  seen_le : r.seen ≤ r.version
  tasks : ∀ task ∈ r.tasks, task.1.version = r.version
  unseen : r.seen ≠ r.version → r.tasks = []
  sourced : r.seen = r.version ∨ r.taken ≠ none →
    BoundedFifo.Sourced (UnderPolicy r.version) r.source r.cache.entries
  hits : NoneStale r

theorem Current.seen_eq {r : Resolver} (h : Current r) {i : ℕ} (htask : r.tasks[i]? = some task) :
    r.seen = r.version := by
  by_contra hne
  rw [h.unseen hne] at htask
  cases htask

theorem Current.ends {r : Resolver} (h : Current r) (i : ℕ) (answer : Option Answer) : Current (r.ends i answer) where
  seen_le := h.seen_le
  tasks := fun task hmem => h.tasks task (mem_of_mem_eraseIdx hmem)
  unseen := fun hne => by
    change r.tasks.eraseIdx i = []
    rw [h.unseen hne]
    rfl
  sourced := h.sourced
  hits := h.hits

theorem Current.step {r : Resolver} (h : Current r) (hguard : BetweenQueries r e) (hmove : Move r e r') :
    Current r' := by
  cases hmove with
  | idle => exact h
  | reload pol =>
    have htasks : r.tasks = [] := length_eq_zero_iff.mp hguard.2
    refine ⟨Nat.le_succ_of_le h.seen_le, fun task hmem => ?_, fun _ => htasks, fun hor => ?_, h.hits⟩
    · change task ∈ r.tasks at hmem
      rw [htasks] at hmem
      cases hmem
    · obtain hseen | htaken := hor
      · have hle := h.seen_le
        change r.seen = r.version + 1 at hseen
        omega
      · exact absurd (isNone_iff_eq_none.mp hguard.1) htaken
  | checked query htaken hseen => exact ⟨h.seen_le, h.tasks, h.unseen, fun _ => h.sourced (.inl hseen), h.hits⟩
  | cleared query htaken hunseen =>
    exact ⟨h.seen_le, h.tasks, h.unseen, fun _ => BoundedFifo.sourced_clear, h.hits⟩
  | spawned htaken =>
    refine ⟨le_refl _, fun task hmem => ?_, fun hne => absurd rfl hne, fun _ => h.sourced (.inr ?_), h.hits⟩
    · obtain hmem | hmem := mem_append.mp hmem
      · exact h.tasks task hmem
      · obtain rfl := mem_singleton.mp hmem
        rfl
    · rw [htaken]
      exact some_ne_none _
  | ended => exact h.ends _ _
  | hit htask hparse hget hreply =>
    refine ⟨h.seen_le, (h.ends _ none).tasks, (h.ends _ none).unseen, h.sourced, fun hit hmem => ?_⟩
    obtain hmem | hmem := mem_append.mp hmem
    · exact h.hits hit hmem
    · obtain rfl := mem_singleton.mp hmem
      obtain ⟨t, hsrc, hver, hsto⟩ := h.sourced (.inl (h.seen_eq htask)) _ _ hget
      have hasked := h.tasks _ (mem_of_getElem? htask)
      exact ⟨t, hsrc, (hasked.trans hver.symm).le, (hasked.trans hsto.symm).le⟩
  | miss htask hparse =>
    refine ⟨h.seen_le, fun task hmem => ?_, fun hne => absurd (h.seen_eq htask) hne, h.sourced, h.hits⟩
    have hasked := h.tasks _ (mem_of_getElem? htask)
    obtain hmem | rfl := mem_or_eq_of_mem_set hmem
    · exact h.tasks task hmem
    · exact hasked
  | failed => exact h.ends _ _
  | dropped htask hexp =>
    exact ⟨h.seen_le, (h.ends _ none).tasks, (h.ends _ none).unseen, h.sourced, h.hits⟩
  | kept htask hexp =>
    have hasked := h.tasks _ (mem_of_getElem? htask)
    exact ⟨h.seen_le, (h.ends _ none).tasks, (h.ends _ none).unseen,
      fun _ => (h.sourced (.inl (h.seen_eq htask))).insert ⟨hasked, rfl⟩, h.hits⟩

/-- **A reload forgets what was remembered** in every run that reloads only between queries. -/
theorem noneStale_run
    (h : Along step BetweenQueries (.start kind policy) es) : NoneStale (run step (.start kind policy) es) :=
  (run_invariant (fun r e hr hguard => Current.step hr hguard (move_step r e)) es _
    ⟨le_refl _, fun _ hmem => absurd hmem not_mem_nil, fun hne => absurd rfl hne,
      fun _ => BoundedFifo.sourced_new _, fun _ hmem => absurd hmem not_mem_nil⟩ h).hits

theorem noneStale_between : NoneStale (run step (.start .do53 .new)
      (asks (asksQ 0 1 []) 0 ++ [.reply 0 (some (repliesQ 1)), .reload .new] ++
        asksTwice (asksQ 0 1 []) (asksQ 0 1 []) (repliesQ 1))) :=
  noneStale_run _ _ _ (by decide)

/-- Two ways to a stale reply.  In the first run the reload comes after the loop has asked whether the policy changed and
before it takes its snapshot; in the second a query from before the reload stores its reply after it. -/
theorem stale_replies : (run step (.start .do53 .new)
        (asks (asksQ 0 1 []) 0 ++ [.reply 0 (some (repliesQ 1)), .check (asksQ 0 1 []), .reload .new, .spawn,
          .look 0 true (Instant.ofSecs 1)])).hits.map
        (fun hit => (hit.asked.version, hit.source.map fun t => (t.asked.version, t.stored), hit.answer.isSome)) =
      [(1, some (0, 0), true)] ∧ (run step (.start .do53 .new)
        (asks (asksQ 0 1 []) 0 ++ [.reload .new, .check (asksQ 0 1 []), .spawn, .reply 0 (some (repliesQ 1)),
          .look 0 true (Instant.ofSecs 1)])).hits.map
        (fun hit => (hit.asked.version, hit.source.map fun t => (t.asked.version, t.stored), hit.answer.isSome)) =
      [(1, some (0, 1), true)] := by
  decide +kernel

end Boreas.Resolving
