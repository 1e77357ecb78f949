import Boreas.Reports
import Boreas.TokenBucket

/-! # The rate of ICMP errors

Both paths that generate an ICMP error take a token of one budget first, a `TokenBucket` of a hundred tokens and one
second.  By `restrained_run` the errors of every run go to the tunnel, none is about an ICMP error or a packet of the
egress, and less than `n` seconds see at most `100 * (n + 1)` of them. -/

namespace Boreas

open Runs

/-! ### The budget as a bucket -/

def IcmpBudget.bucket (b : IcmpBudget) : TokenBucket := ⟨b.tokens, b.refilled.ns⟩

theorem IcmpBudget.bucket_take (b : IcmpBudget) (now : Instant) :
    (b.take now).1.bucket = (b.bucket.take icmpErrorsPerSecond (fromSecs 1) now.ns).1 ∧
      (b.take now).2 = (b.bucket.take icmpErrorsPerSecond (fromSecs 1) now.ns).2 := by
  have hrefill : (b.refill now).bucket = b.bucket.refill icmpErrorsPerSecond (fromSecs 1) now.ns := by
    unfold IcmpBudget.refill TokenBucket.refill Instant.saturatingDurationSince IcmpBudget.bucket
    split_ifs <;> rfl
  unfold IcmpBudget.take TokenBucket.take
  dsimp only
  rw [← hrefill]
  have htoks : (b.refill now).bucket.tokens = (b.refill now).tokens := rfl
  rw [htoks]
  split_ifs with hempty
  · exact ⟨rfl, rfl⟩
  · exact ⟨rfl, rfl⟩

namespace Dispatcher

/-! ### The errors of a run -/

def generatedBy (E : Etherparse) (d : Dispatcher) (op : Op) : List (Instant × Report) :=
  match op.reading, d.report E op with
  | some now, some r => [(now, r)]
  | _, _ => []

def generated (E : Etherparse) : Dispatcher → List Op → List (Instant × Report)
  | _, [] => []
  | d, op :: ops => d.generatedBy E op ++ generated E (d.step E op) ops

variable (E : Etherparse)

theorem generated_snoc (d : Dispatcher) (ops : List Op) (op : Op) :
    generated E d (ops ++ [op]) = generated E d ops ++ (run (step E) d ops).generatedBy E op := by
  induction ops generalizing d with
  | nil => simp [generated]
  | cons first ops ih => simp [generated, ih]

def InOrder (ops : List Op) : Prop := (ops.filterMap Op.reading).Pairwise (· ≤ ·)

instance (ops : List Op) : Decidable (InOrder ops) := List.instDecidablePairwise _

structure Restrained (E : Etherparse) (d : Dispatcher) (origin : Side) (ingress : Ingress) (now : Instant) : Prop where
  /-- An error is queued for the tunnel. It is about a packet of the tunnel, or the datagram its fragments complete,
  that is not an ICMP error. -/
  reported : ∀ r, d.report E (.packet origin ingress now) = some r → origin = .tunnel ∧
    (∃ bytes, r.packet E = some bytes ∧
      (d.step E (.packet origin ingress now)).transmits = d.transmits ++ [⟨.tunnel, bytes⟩]) ∧
    ∃ whole, IngressPacket.parse E r.quoted = .ok whole ∧ whole.transport ≠ .icmp .error
  /-- Without an error, nothing is queued but the packet, or the datagram its fragments complete, for the other side. -/
  unreported : d.report E (.packet origin ingress now) = none →
    (d.step E (.packet origin ingress now)).transmits = d.transmits ∨
      ∃ clamp d' whole ingress', d.handled E origin ingress now = some (d', whole, ingress') ∧
        (d.step E (.packet origin ingress now)).transmits =
          d.transmits ++ [⟨origin.across, passedOn clamp ingress'.bytes⟩]

theorem restrained (d : Dispatcher) (origin : Side) (ingress : Ingress) (now : Instant) :
    Restrained E d origin ingress now := by
  obtain ⟨hquiet, hnone⟩ | ⟨d', whole, ingress', hhand, hpar, -, hout⟩ := outcome_packet E d origin ingress now
  · exact ⟨fun r hr => absurd (hnone.symm.trans hr) (by simp), fun _ => .inl hquiet.transmits⟩
  generalize hrep : d.report E (.packet origin ingress now) = told at hout
  cases hout with
  | silent hqueue => exact ⟨fun r hr => absurd (hrep.symm.trans hr) (by simp), fun _ => .inl hqueue⟩
  | forwarded hslice hqueue =>
    exact ⟨fun r hr => absurd (hrep.symm.trans hr) (by simp), fun _ => .inr ⟨_, d', whole, ingress', hhand, hqueue⟩⟩
  | reported hquo hbytes horig hinfo hgr hicmp hqueue =>
    refine ⟨fun r hr => ?_, fun hnone => absurd (hrep.symm.trans hnone) (by simp)⟩
    cases hrep.symm.trans hr
    exact ⟨horig, ⟨_, hbytes, hqueue⟩, whole, by rw [hquo]; exact hpar, hinfo⟩

/-! ### The rate -/

def Budgeted (d : Dispatcher) (errors : List (Instant × Report)) (clock : ℕ) : Prop :=
  TokenBucket.Kept icmpErrorsPerSecond (fromSecs 1) d.icmp.bucket (errors.map fun e => e.1.ns) clock

variable {d : Dispatcher} {errors : List (Instant × Report)}

theorem budgeted_packet {E : Etherparse} (h : Budgeted d errors now.ns) (origin : Side) (ingress : Ingress) :
    Budgeted (d.step E (.packet origin ingress now)) (errors ++ d.generatedBy E (.packet origin ingress now))
      now.ns := by
  obtain ⟨hbucket, hgrants⟩ := d.icmp.bucket_take now
  have htake := TokenBucket.Kept.take (by decide) h
  rw [← hbucket, ← hgrants] at htake
  unfold generatedBy Op.reading
  obtain ⟨hquiet, hnone⟩ | ⟨-, whole, ingress', -, -, -, hout⟩ := outcome_packet E d origin ingress now
  · rw [hnone, Budgeted, hquiet.icmp]
    simpa [Budgeted] using h
  generalize d.report E (.packet origin ingress now) = told at hout
  cases hout with
  | silent hqueue hicmp =>
    cases hicmp with
    | inl hsame =>
      rw [Budgeted, hsame]
      simpa [Budgeted] using h
    | inr htaken =>
      rw [Budgeted, htaken]
      refine htake.sublist ?_
      split_ifs <;> simp
  | forwarded hslice hqueue hicmp =>
    rw [Budgeted, hicmp]
    simpa [Budgeted] using h
  | reported hquo hbytes horig hinfo hgr hicmp hqueue =>
    rw [hgr, if_pos rfl] at htake
    rw [Budgeted, hicmp]
    simpa using htake

theorem budgeted_other {E : Etherparse}
    (h : Budgeted d errors clock) (hother : ∀ origin ingress now, op ≠ .packet origin ingress now) :
    Budgeted (d.step E op) (errors ++ d.generatedBy E op) clock := by
  have hnone : d.generatedBy E op = [] := by
    cases op with
    | packet origin ingress now => exact absurd rfl (hother origin ingress now)
    | _ => rfl
  rw [hnone, List.append_nil, Budgeted, icmp_step E d hother]
  exact h

/-- **Run lemma**: the budget keeps the errors of a run whose readings are in order. -/
theorem budgeted_run (hstart : ∀ clock, Budgeted d [] clock) (ops : List Op)
    (horder : InOrder ops) (clock : Instant) (hclock : ∀ now ∈ ops.filterMap Op.reading, now ≤ clock) :
    Budgeted (run (step E) d ops) (generated E d ops) clock.ns := by
  refine run_clocked (I := fun ops d' t => Budgeted d' (generated E d ops) t.ns) (G := fun _ _ => True)
    Op.reading (fun t => hstart t.ns) (fun _ _ _ _ h hle => h.later hle) ?_ ?_ ops horder
    (along_of_mem ops d fun _ _ _ => trivial) clock hclock
  · intro ops op now hread h _
    rw [generated_snoc]
    by_cases hpkt : ∃ origin ingress now, op = .packet origin ingress now
    · obtain ⟨origin, ingress, now', rfl⟩ := hpkt
      cases hread
      exact budgeted_packet h origin ingress
    · exact budgeted_other h fun origin ingress now heq => hpkt ⟨origin, ingress, now, heq⟩
  · intro ops op t hread h _
    rw [generated_snoc]
    refine budgeted_other h ?_
    rintro origin ingress now rfl
    cases hread

theorem budgeted_new {dns : DnsPolicy}
    (h : new filter dns accepts egress pathMtu limits pool epoch = .ok d) (clock : ℕ) : Budgeted d [] clock := by
  rw [Budgeted, (datapath_of_new h).2]
  exact TokenBucket.kept_new epoch.ns clock

/-- **The errors of a run are bounded, and none answers an error.** In every run of a new datapath whose clock
readings are in order, each packet call is restrained, and an interval of less than `n` seconds sees at most
`100 * (n + 1)` errors. -/
theorem restrained_run (E : Etherparse) {filter : FilterPolicy} {dns : DnsPolicy} {accepts : Accepts}
    {egress : PathProperties} {pathMtu : Mtu} {limits : DispatchLimits} {pool : BufferPool} {epoch : Instant}
    {d : Dispatcher} (hnew : new filter dns accepts egress pathMtu limits pool epoch = .ok d) (ops : List Op)
    (horder : InOrder ops) :
    (∀ earlier origin ingress now later, ops = earlier ++ .packet origin ingress now :: later →
        Restrained E (run (step E) d earlier) origin ingress now) ∧
      ∀ n first last, 1 ≤ n → last - first < fromSecs n →
        (generated E d ops).countP (fun e => first ≤ e.1.ns ∧ e.1.ns ≤ last) ≤ 100 * (n + 1) := by
  refine ⟨fun earlier origin ingress now later _ => restrained E _ origin ingress now, fun n first last _ hshort => ?_⟩
  have hkept := budgeted_run E (budgeted_new hnew) ops horder Instant.last fun now _ => now.le_last
  have hperiods : fromSecs n = n * fromSecs 1 := by simp [fromSecs]
  have hcount := hkept.within_le (hperiods ▸ hshort)
  unfold TokenBucket.within at hcount
  rw [List.countP_map] at hcount
  exact hcount

def lastHops : List Op :=
  [.packet .tunnel (.borrowed lastHop) (Instant.ofSecs 1), .packet .tunnel (.borrowed lastHop) (Instant.ofSecs 2),
    .packet .egress (.borrowed lastHop) (Instant.ofSecs 2)]

theorem restrained_lastHops : InOrder lastHops ∧ (generated plainIp (inspecting .ipPackets) lastHops).length = 2 ∧
    (generated plainIp (inspecting .ipPackets) lastHops).countP
      (fun e => fromSecs 1 ≤ e.1.ns ∧ e.1.ns ≤ fromSecs 2) ≤ 100 * (2 + 1) :=
  have horder : InOrder lastHops := by decide +kernel
  ⟨horder, by decide +kernel,
    (restrained_run plainIp (new_inspecting .ipPackets) lastHops horder).2 2 _ _ (by decide) (by decide)⟩

end Dispatcher

end Boreas
