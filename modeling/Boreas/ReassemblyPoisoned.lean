import Boreas.ReassemblyGenuine

/-! # Contradicted datagrams stay dead

`Contradicts acc f` says that a fragment cannot belong to one datagram with the fragments `acc`, and `receive` poisons
a datagram with both (`receive_contradicted`).  It stays in the table until `expire` takes it out (`dead_step`), and
every fragment of its key is discarded meanwhile (`dead_run`). -/

namespace Boreas.L3

open Instant Runs Tiling

/-- The fragment cannot belong to one datagram with those of `acc`. -/
def Contradicts (acc : List Fragment) (f : Fragment) : Prop :=
  ∃ g ∈ acc,
    (g.offset < f.extent ∧ f.offset < g.extent) ∨
    (g.moreFragments = false ∧ g.extent < f.extent) ∨
    (g.moreFragments = false ∧ f.moreFragments = false ∧ g.extent ≠ f.extent) ∨
    (f.moreFragments = false ∧ f.extent < g.extent)

instance (acc : List Fragment) (f : Fragment) : Decidable (Contradicts acc f) :=
  inferInstanceAs (Decidable (∃ g ∈ acc, _))

theorem Assembled.not_contradicts (h : Assembled k (acc ++ [f]) p) : ¬ Contradicts acc f := by
  rintro ⟨g, hg, hcontra⟩
  have hfmem : f ∈ acc ++ [f] := by simp
  have hgmem : g ∈ acc ++ [f] := List.mem_append_left _ hg
  have hfok := (h.acceptable f hfmem).2
  have hgok := (h.acceptable g hgmem).2
  obtain ⟨hg0, hf0⟩ | ⟨hglast, hlt⟩ | ⟨hglast, hflast, hne⟩ | ⟨hflast, hlt⟩ := hcontra
  · have hapart : Apart Fragment.firstBlock Fragment.endBlock g f :=
      (List.pairwise_append.mp h.apart).2.2 g hg f (List.mem_singleton.mpr rfl)
    cases hapart with
    | inl hgf =>
      have := Fragment.extent_le_offset hgok hgf
      omega
    | inr hfg =>
      have := Fragment.extent_le_offset hfok hfg
      omega
  · have hle := h.total_le _ (h.total_of_last g hgmem hglast) f hfmem
    omega
  · have htotal := h.total_of_last g hgmem hglast
    rw [h.total_of_last f hfmem hflast] at htotal
    exact hne (Option.some.inj htotal).symm
  · have hle := h.total_le _ (h.total_of_last f hfmem hflast) g hgmem
    omega

theorem receive_contradicted (hkey : f.key = k)
    (hf : f.Acceptable) (h : p.poisoned = false → Assembled k acc p) (hcontra : Contradicts acc f) :
    (p.receive f).2 = .discarded ∧ (p.receive f).1.poisoned = true := by
  obtain hdisc | ⟨-, hacc⟩ := receive_spec hkey hf h
  · exact hdisc
  · exact absurd hcontra hacc.not_contradicts

theorem receive_poisoned {p : Pending} (h : p.poisoned = true) : p.receive f = (p, .discarded) := by
  simp [Pending.receive, h]

namespace Reassembler

def Dead (r : Reassembler) (k : Key) : Prop := ∃ p, r.pending.lookup k = some p ∧ p.poisoned = true

/-- `expire` takes the pending datagram of `k` out, in a call of its own or to make room for a new one. -/
def Evicts (r : Reassembler) (k : Key) (op : Op) : Prop :=
  match op with
  | .expire now => (r.expire now).1.pending.lookup k = none
  | .push f now => r.Full f.key ∧ (r.expire now).1.pending.lookup k = none

instance (r : Reassembler) (k : Key) (op : Op) : Decidable (r.Evicts k op) :=
  match op with
  | .expire _ => inferInstanceAs (Decidable (_ = none))
  | .push _ _ => inferInstanceAs (Decidable (_ ∧ _ = none))

variable {r : Reassembler} {k : Key}

theorem Dead.expire (h : r.Dead k) (hkept : (r.expire now).1.pending.lookup k ≠ none) : (r.expire now).1.Dead k := by
  obtain ⟨p', hp'⟩ := Option.ne_none_iff_exists'.mp hkept
  obtain ⟨p, hp, hpoi⟩ := h
  obtain ⟨q, e, hq, rfl⟩ := r.expire_onlyExpired now k p' hp'
  rw [hp] at hq
  cases hq
  exact ⟨_, hp', hpoi⟩

theorem Dead.opened (h : r.Dead k) (hp : r.Opened k p) : p.poisoned = true := by
  obtain ⟨q, hq, hpoi⟩ := h
  obtain ⟨p₀, e, hlook, rfl⟩ | ⟨hnone, -⟩ := hp
  · rw [hq] at hlook
    cases hlook
    exact hpoi
  · rw [hq] at hnone
    cases hnone

theorem Dead.take (h : r.Dead k) (f : Fragment) (now : Instant) :
    (r.take f now).1.Dead k ∧ (f.key = k → (r.take f now).2 = .discarded) := by
  obtain ⟨p, hopen, hother, hcases⟩ := r.take_spec f now
  by_cases hk : f.key = k
  · subst hk
    have hpoi := h.opened hopen
    rw [receive_poisoned hpoi] at hcases
    obtain ⟨-, hout, hlook⟩ | ⟨hrec, -⟩ | ⟨hrec, -⟩ := hcases
    · exact ⟨⟨p, hlook, hpoi⟩, fun _ => hout⟩
    · cases hrec
    · cases hrec
  · constructor
    · obtain ⟨q, hq, hpoi⟩ := h
      exact ⟨q, by rw [hother k (Ne.symm hk), hq], hpoi⟩
    · exact fun h => absurd h hk

theorem Dead.push (h : r.Dead k) (f : Fragment) (now : Instant) (hkept : ¬ r.Evicts k (.push f now)) :
    (r.push f now).1.Dead k ∧ (f.key = k → (r.push f now).2 = .discarded) := by
  unfold Reassembler.push
  by_cases hacc : f.Acceptable
  · rw [if_neg (not_not_intro hacc)]
    by_cases hfull : r.Full f.key
    · rw [if_pos hfull]
      have hdead : (r.expire now).1.Dead k := h.expire fun hnone => hkept ⟨hfull, hnone⟩
      dsimp only
      split_ifs
      · exact ⟨hdead, fun _ => rfl⟩
      · exact hdead.take f now
    · rw [if_neg hfull]
      exact h.take f now
  · rw [if_pos hacc]
    exact ⟨h, fun _ => rfl⟩

/-- **Step lemma**: a poisoned datagram leaves the table by `expire` only. -/
theorem dead_step (r : Reassembler) (op : Op) (h : r.Dead k) (hkept : ¬ r.Evicts k op) : (r.step op).Dead k := by
  cases op with
  | push f now => exact (h.push f now hkept).1
  | expire now => exact h.expire hkept

theorem dead_of_contradicts (h : Recorded k s)
    (hkey : f.key = k) (hf : f.Acceptable) (hcontra : Contradicts s.2 f) (now : Instant) :
    (s.1.push f now).1.Dead k := by
  subst hkey
  have hpend : s.1.pending.lookup f.key ≠ none := by
    intro hnone
    obtain ⟨g, hg, -⟩ := hcontra
    rw [h.1 hnone] at hg
    cases hg
  have hpush : s.1.push f now = s.1.take f now := by
    unfold push
    rw [if_neg (not_not_intro hf), if_neg fun hfull => hpend hfull.1]
  rw [hpush]
  obtain ⟨p, hopen, -, hcases⟩ := s.1.take_spec f now
  have hp := assembled_of_opened h.1 h.2 hopen
  obtain ⟨hdisc, hpoi⟩ := receive_contradicted rfl hf hp hcontra
  obtain ⟨-, -, hlook⟩ | ⟨hrec, -⟩ | ⟨hrec, -⟩ := hcases
  · exact ⟨_, hlook, hpoi⟩
  · rw [hdisc] at hrec
    cases hrec
  · rw [hdisc] at hrec
    cases hrec

/-- **Contradicted datagrams stay dead**: once a well-formed fragment has contradicted the fragments of its key
accepted so far, no push for that key completes a datagram until `expire` has evicted the key. A malformed fragment
is discarded and leaves every datagram as it was. -/
theorem dead_run (timeout : Duration) (maxPending : ℕ+) (before after : List Op) (f g : Fragment)
    (now later : Instant) (packet : Bytes) :
    (f.Acceptable → Contradicts (acceptedSince (new timeout maxPending) f.key before) f →
      Along step (fun r op => ¬ r.Evicts f.key op)
        (run step (new timeout maxPending) (before ++ [.push f now])) after → g.key = f.key →
      ((run step (new timeout maxPending) (before ++ .push f now :: after)).push g later).2 ≠ .complete packet) ∧
    (¬ f.Acceptable → ((run step (new timeout maxPending) before).push f now).2 = .discarded ∧
      ((run step (new timeout maxPending) before).push f now).1.pending =
        (run step (new timeout maxPending) before).pending) := by
  refine ⟨fun hf hcontra hkept hkey => ?_, fun hf => by simp [push, hf, discard]⟩
  have hrec := recorded_run timeout maxPending f.key before
  have hdead := dead_of_contradicts hrec rfl hf hcontra now
  rw [run_record_fst] at hdead
  have hrun : (run step (new timeout maxPending) (before ++ .push f now :: after)).Dead f.key := by
    have hsplit : before ++ .push f now :: after = (before ++ [.push f now]) ++ after := by simp
    rw [hsplit, run_append]
    refine run_invariant (I := fun r => r.Dead f.key) (fun r op => dead_step r op) after _ ?_ hkept
    rw [run_snoc]
    exact hdead
  have hpend := hrun
  obtain ⟨p, hp, -⟩ := hpend
  have hnotFull : ¬ (run step (new timeout maxPending) (before ++ .push f now :: after)).Evicts f.key
      (.push g later) := by
    rintro ⟨⟨hnone, -⟩, -⟩
    rw [hkey, hp] at hnone
    cases hnone
  rw [(hrun.push g later hnotFull).2 hkey]
  simp

/-- A duplicate of the first fragment: the last one, sent twice, does not complete the datagram. -/
theorem dead_duplicate : ¬ ∃ packet, ((run step (new (fromSecs 30) 4)
      [.push (exampleFragment 0 true [1, 2, 3, 4, 5, 6, 7, 8]) (ofSecs 0),
        .push (exampleFragment 0 true [1, 2, 3, 4, 5, 6, 7, 8]) (ofSecs 1),
        .push (exampleFragment 1 false [9, 10]) (ofSecs 2)]).push
      (exampleFragment 1 false [9, 10]) (ofSecs 3)).2 = .complete packet := by
  rintro ⟨packet, hcomp⟩
  exact (dead_run (fromSecs 30) 4 [.push (exampleFragment 0 true [1, 2, 3, 4, 5, 6, 7, 8]) (ofSecs 0)]
    [.push (exampleFragment 1 false [9, 10]) (ofSecs 2)]
    (exampleFragment 0 true [1, 2, 3, 4, 5, 6, 7, 8]) (exampleFragment 1 false [9, 10])
    (ofSecs 1) (ofSecs 3) packet).1 (by decide) (by decide) ⟨by decide, trivial⟩ rfl hcomp

/-- A fragment that ends within a block overlaps an accepted one and is discarded, and the datagram is completed all
the same. -/
theorem completed_past_malformed : Contradicts (acceptedSince (new (fromSecs 30) 4) (exampleFragment 0 true [7]).key
        [.push (exampleFragment 0 true [1, 2, 3, 4, 5, 6, 7, 8]) (ofSecs 0)]) (exampleFragment 0 true [7]) ∧
      ∃ packet, ((run step (new (fromSecs 30) 4) [.push (exampleFragment 0 true [1, 2, 3, 4, 5, 6, 7, 8]) (ofSecs 0),
          .push (exampleFragment 0 true [7]) (ofSecs 1)]).push
        (exampleFragment 1 false [9, 10]) (ofSecs 2)).2 = .complete packet := by
  constructor
  · decide
  · refine ⟨[0x45, 0x00, 0x00, 0x1e, 0xbe, 0xef, 0x00, 0x00, 64, 17, 0xcf, 0xa8, 192, 0, 2, 1, 198, 51, 100, 2] ++
      [1, 2, 3, 4, 5, 6, 7, 8, 9, 10], ?_⟩
    decide

end Reassembler
end Boreas.L3
