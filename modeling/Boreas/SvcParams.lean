import Boreas.DnsWritten

/-! # The service parameters of a record

A record that `svc_params` can walk is a head and a list of parameters with ascending keys, one behind the other
(`Service`).  The loops of policy/dns.rs are folds over that list (`foldParams_spec`), and cutting `ech` and the
HTTP/3 `alpn` leaves the record with exactly the parameters that the policy `keeps` (`answerRdata_eq`). -/

namespace Boreas.Dns

open List hiding cons head keys length lt_irrefl next nil
open Slices

/-! ### Parameters on the wire -/

def paramBytes (p : ℕ × Bytes) : Bytes := toBeBytes p.1 ++ (toBeBytes p.2.length ++ p.2)

theorem length_paramBytes : (paramBytes p).length = 4 + p.2.length := by
  simp only [paramBytes, length_append, length_toBeBytes]
  omega

def paramsBytes (ps : List (ℕ × Bytes)) : Bytes := ps.flatMap paramBytes

theorem paramsBytes_append (ps qs : List (ℕ × Bytes)) : paramsBytes (ps ++ qs) = paramsBytes ps ++ paramsBytes qs :=
  flatMap_append

structure Sendable (ps : List (ℕ × Bytes)) : Prop where
  ascending : ps.Pairwise fun p q => p.1 < q.1
  keys : ∀ p ∈ ps, p.1 < 65536
  values : ∀ p ∈ ps, p.2.length < 65536

theorem Sendable.sublist (h : Sendable ps) (hsub : qs.Sublist ps) : Sendable qs :=
  ⟨h.ascending.sublist hsub, fun p hp => h.keys p (hsub.mem hp), fun p hp => h.values p (hsub.mem hp)⟩

def placed : ℕ → List (ℕ × Bytes) → List SvcParam
  | _, [] => []
  | cursor, p :: ps => ⟨p.1, p.2, (cursor, cursor + 4 + p.2.length)⟩ :: placed (cursor + 4 + p.2.length) ps

theorem placed_append :
    placed pos (ps ++ qs) = placed pos ps ++ placed (pos + (paramsBytes ps).length) qs := by
  induction ps generalizing pos with
  | nil => rfl
  | cons p ps ih =>
    have hnext : pos + 4 + p.2.length + (paramsBytes ps).length = pos + (paramsBytes (p :: ps)).length := by
      rw [paramsBytes, paramsBytes, flatMap_cons, length_append, length_paramBytes]
      omega
    rw [cons_append, placed, ih, placed, cons_append, hnext]

variable {rdata : Bytes}

theorem readParam_spec (h : readParam rdata cursor previous = .ok q) :
    ∃ p : ℕ × Bytes, q = ⟨p.1, p.2, (cursor, cursor + 4 + p.2.length)⟩ ∧ Stands rdata cursor (paramBytes p) ∧
      cursor + 4 + p.2.length ≤ rdata.length ∧ p.1 < 65536 ∧ p.2.length < 65536 ∧ ∀ k ∈ previous, k < p.1 := by
  unfold readParam at h
  simp only [bind_eq_ok, okOr_eq_ok, ensure_eq_ok] at h
  obtain ⟨key, hkey, length, hlength, value, hvalue, -, hprev, h⟩ := h
  cases h
  unfold takeAt at hvalue
  split_ifs at hvalue with hle
  cases hvalue
  have hlen : (slice rdata (cursor + 4) length).length = length := length_slice hle
  refine ⟨(key, slice rdata (cursor + 4) length), ?_, ?_, ?_, u16At_lt hkey, ?_, hprev⟩
  · rw [hlen]
  · rw [paramBytes, stands_append, stands_append, hlen]
    exact ⟨stands_of_u16At hkey, stands_of_u16At hlength, stands_slice hle⟩
  · rw [hlen]
    exact hle
  · rw [hlen]
    exact u16At_lt hlength

theorem readParam_of_stands
    (h : Stands rdata cursor (paramBytes p)) (hle : cursor + 4 + p.2.length ≤ rdata.length) (hkey : p.1 < 65536)
    (hvalue : p.2.length < 65536) (hprev : ∀ k ∈ previous, k < p.1) :
    readParam rdata cursor previous = .ok ⟨p.1, p.2, (cursor, cursor + 4 + p.2.length)⟩ := by
  rw [paramBytes, stands_append, stands_append, length_toBeBytes, length_toBeBytes] at h
  obtain ⟨h0, h2, h4⟩ := h
  simp only [readParam, u16At_of_stands h0 hkey, u16At_of_stands h2 hvalue, takeAt_of_stands h4 hle, okOr, ensure, bind,
    Except.bind, pure, Except.pure]
  rw [if_pos hprev]

/-! ### Loops over the parameters -/

theorem foldParams_spec (hcur : pos ≤ rdata.length) (h : foldParams rdata f pos previous s = .ok s') :
    ∃ ps, rdata.drop pos = paramsBytes ps ∧ Sendable ps ∧ (∀ k ∈ previous, ∀ p ∈ ps, k < p.1) ∧
      (placed pos ps).foldlM f s = .ok s' := by
  fun_induction foldParams rdata f pos previous s with
  | case1 pos previous s hend =>
    refine ⟨[], ?_, ⟨List.Pairwise.nil, nofun, nofun⟩, fun _ _ => nofun, h⟩
    rw [drop_of_length_le hend]
    rfl
  | case2 | case3 => cases h
  | case4 pos previous s hend q hread next hstep ih =>
    obtain ⟨p, rfl, hst, hle, hkey, hvalue, hprev⟩ := readParam_spec hread
    obtain ⟨ps, hdrop, hsend, hlater, hfold⟩ := ih hle h
    refine ⟨p :: ps, ?_, ⟨?_, ?_, ?_⟩, ?_, ?_⟩
    · rw [paramsBytes, flatMap_cons, ← paramsBytes, ← hdrop, ← hst.slice_eq, length_paramBytes, slice,
        Nat.add_assoc, ← drop_drop, take_append_drop]
    · exact pairwise_cons.mpr ⟨hlater p.1 rfl, hsend.ascending⟩
    · exact forall_mem_cons.mpr ⟨hkey, hsend.keys⟩
    · exact forall_mem_cons.mpr ⟨hvalue, hsend.values⟩
    · intro k hk
      refine forall_mem_cons.mpr ⟨hprev k hk, fun q hq => ?_⟩
      exact (hprev k hk).trans (hlater p.1 rfl q hq)
    · rw [placed, foldlM_cons, hstep]
      exact hfold

theorem foldParams_placed (f : σ → SvcParam → Except DnsError σ) (s : σ) (hst : Stands rdata cursor (paramsBytes ps))
    (hlen : cursor + (paramsBytes ps).length = rdata.length) (hsend : Sendable ps)
    (hprev : ∀ k ∈ previous, ∀ p ∈ ps, k < p.1) :
    foldParams rdata f cursor previous s = (placed cursor ps).foldlM f s := by
  induction ps generalizing cursor previous s with
  | nil =>
    have hend : rdata.length ≤ cursor := hlen.ge
    rw [foldParams, if_pos hend]
    rfl
  | cons p ps ih =>
    rw [paramsBytes, flatMap_cons, ← paramsBytes, length_append, length_paramBytes] at hlen
    rw [paramsBytes, flatMap_cons, stands_append, length_paramBytes] at hst
    obtain ⟨hfirst, hrest⟩ := hst
    have hread := readParam_of_stands hfirst (by omega) (hsend.keys p mem_cons_self)
      (hsend.values p mem_cons_self) (fun k hk => hprev k hk p mem_cons_self)
    have hnext : cursor + (4 + p.2.length) = cursor + 4 + p.2.length := by omega
    rw [hnext] at hrest
    have hlater := (pairwise_cons.mp hsend.ascending).1
    have hlen' : cursor + 4 + p.2.length + (paramsBytes ps).length = rdata.length := by omega
    rw [foldParams, if_neg (by omega), placed, foldlM_cons]
    split
    · rename_i e he
      rw [hread] at he
      cases he
    rename_i q hq
    rw [hread] at hq
    cases hq
    rcases hf : f s ⟨p.1, p.2, (cursor, cursor + 4 + p.2.length)⟩ with _ | next
    · rfl
    refine ih next hrest hlen' (hsend.sublist (sublist_cons_self p ps)) ?_
    rintro k ⟨⟩ q hq
    exact hlater q hq

/-! ### Records with parameters -/

theorem targetEnd_lt (h : targetEnd rdata pos = .ok stop) : pos < stop := by
  fun_induction targetEnd rdata pos with
  | case1 | case2 => cases h
  | case3 =>
    cases h
    omega
  | case4 pos length _ _ _ ih =>
    have := ih h
    omega

theorem targetEnd_congr (h : targetEnd rdata pos = .ok stop)
    (hagree : ∀ j, j < stop → other[j]? = rdata[j]?) : targetEnd other pos = .ok stop := by
  fun_induction targetEnd rdata pos with
  | case1 | case2 => cases h
  | case3 pos hat hshort =>
    cases h
    have hother := (hagree pos (by omega)).trans hat
    rw [targetEnd]
    split
    · rename_i hnone
      rw [hother] at hnone
      cases hnone
    · rename_i found hfound
      rw [hother] at hfound
      cases hfound
      rw [if_neg hshort, if_pos rfl]
  | case4 pos length hat hshort hzero ih =>
    have hlt := targetEnd_lt h
    have hother := (hagree pos (by omega)).trans hat
    rw [targetEnd]
    split
    · rename_i hnone
      rw [hother] at hnone
      cases hnone
    rename_i found hfound
    rw [hother] at hfound
    cases hfound
    rw [if_neg hshort, if_neg hzero]
    exact ih h

structure Service (rdata head : Bytes) (ps : List (ℕ × Bytes)) : Prop where
  rdata_eq : rdata = head ++ paramsBytes ps
  target : targetEnd rdata 2 = .ok head.length
  sendable : Sendable ps

theorem service_of_fold (h : (svcParamsAt rdata >>= fun cursor => foldParams rdata f cursor none s) = .ok s') :
    ∃ head ps, Service rdata head ps ∧ (placed head.length ps).foldlM f s = .ok s' := by
  unfold svcParamsAt at h
  simp only [bind_eq_ok, ensure_eq_ok] at h
  obtain ⟨cursor, ⟨-, -, cursor', htgt, -, hle, hcur⟩, h⟩ := h
  cases hcur
  obtain ⟨ps, hdrop, hsend, -, hfold⟩ := foldParams_spec hle h
  have hhead : (rdata.take cursor).length = cursor := length_take_of_le hle
  refine ⟨rdata.take cursor, ps, ⟨?_, ?_, hsend⟩, ?_⟩
  · rw [← hdrop, take_append_drop]
  · rw [hhead]
    exact htgt
  · rw [hhead]
    exact hfold

variable {ps : List (ℕ × Bytes)}

theorem Service.fold (h : Service rdata head ps) (f : σ → SvcParam → Except DnsError σ) (s : σ) :
    (svcParamsAt rdata >>= fun pos => foldParams rdata f pos none s) = (placed head.length ps).foldlM f s := by
  have hlen := congrArg List.length h.rdata_eq
  rw [length_append] at hlen
  have htgt := targetEnd_lt h.target
  have hat : svcParamsAt rdata = .ok head.length := by
    simp only [svcParamsAt, h.target, ensure, bind, Except.bind, pure, Except.pure]
    rw [if_pos (by omega)]
    rw [if_pos (by omega)]
  rw [hat]
  refine foldParams_placed f s ?_ hlen.symm h.sendable (fun _ hk => by cases hk)
  have hmid := stands_middle head (paramsBytes ps) []
  rwa [append_nil, ← h.rdata_eq] at hmid

theorem Service.sublist (h : Service rdata head ps)
    (hsub : qs.Sublist ps) : Service (head ++ paramsBytes qs) head qs := by
  refine ⟨rfl, targetEnd_congr h.target fun j hj => ?_, h.sendable.sublist hsub⟩
  rw [h.rdata_eq, getElem?_append_left hj, getElem?_append_left hj]

/-! ### Parameters by their keys -/

/-- The parameters with keys from `lo` on and below `hi`. -/
def segment (lo hi : ℕ) (ps : List (ℕ × Bytes)) : List (ℕ × Bytes) := ps.filter fun p => lo ≤ p.1 && p.1 < hi

theorem mem_segment : p ∈ segment lo hi ps ↔ p ∈ ps ∧ lo ≤ p.1 ∧ p.1 < hi := by
  simp [segment]

theorem segment_append (hsort : ps.Pairwise fun p q => p.1 < q.1) (hlo : lo ≤ mid) (hhi : mid ≤ hi) :
    segment lo hi ps = segment lo mid ps ++ segment mid hi ps := by
  induction ps with
  | nil => rfl
  | cons p ps ih =>
    obtain ⟨hp, hsort⟩ := pairwise_cons.mp hsort
    have ih := ih hsort
    unfold segment at ih ⊢
    by_cases hmid : p.1 < mid
    · by_cases hfirst : lo ≤ p.1
      · simp [hfirst, hmid, hmid.trans_le hhi, ih]
      · simp [hfirst, ih, show ¬ mid ≤ p.1 by omega]
    -- everything behind `p` has a larger key still
    have hnone : ps.filter (fun q => lo ≤ q.1 && q.1 < mid) = [] := by
      refine filter_eq_nil_iff.mpr fun q hq => ?_
      have := hp q hq
      simp
      omega
    by_cases hlast : p.1 < hi
    · simp [ih, hnone, hlast, show lo ≤ p.1 ∧ mid ≤ p.1 by omega]
    · simp [ih, hmid, hlast]

theorem segment_all (h : Sendable ps) : segment 0 65536 ps = ps :=
  filter_eq_self.mpr fun p hp => by simpa using h.keys p hp

theorem segment_one (hsort : ps.Pairwise fun p q => p.1 < q.1) (k : ℕ) :
    segment k (k + 1) ps = [] ∨ ∃ value, segment k (k + 1) ps = [(k, value)] := by
  have hkeys : ∀ p ∈ segment k (k + 1) ps, p.1 = k := fun p hp => by
    have := (mem_segment.mp hp).2
    omega
  have hsub := hsort.sublist (filter_sublist (p := fun p => k ≤ p.1 && p.1 < k + 1))
  change (segment k (k + 1) ps).Pairwise _ at hsub
  match hseg : segment k (k + 1) ps with
  | [] => exact .inl rfl
  | [(key, value)] => exact .inr ⟨value, by rw [show key = k from hkeys (key, value) (by simp [hseg])]⟩
  | p :: q :: rest =>
    rw [hseg] at hsub hkeys
    have hlt := (pairwise_cons.mp hsub).1 q mem_cons_self
    rw [hkeys p mem_cons_self, hkeys q (by simp)] at hlt
    exact absurd hlt (lt_irrefl k)

/-- Where the parameters with keys from `lo` on and below `hi` stand. -/
def rangeOf (cursor lo hi : ℕ) (ps : List (ℕ × Bytes)) : Range :=
  (cursor + (paramsBytes (segment 0 lo ps)).length, cursor + (paramsBytes (segment 0 hi ps)).length)

variable {f : σ → SvcParam → Except DnsError σ}

theorem foldlM_ignored (pos : ℕ)
    (h : ∀ p ∈ ps, ∀ at_, f s ⟨p.1, p.2, at_⟩ = .ok s) : (placed pos ps).foldlM f s = .ok s := by
  induction ps generalizing pos with
  | nil => rfl
  | cons p ps ih =>
    rw [placed, foldlM_cons, h p mem_cons_self]
    exact ih _ fun q hq => h q (mem_cons_of_mem p hq)

variable {head : Bytes}

theorem foldlM_segment (hsend : Sendable ps)
    (hle : lo ≤ hi) (hhi : hi ≤ 65536) (h : ∀ p : ℕ × Bytes, p.1 < lo ∨ hi ≤ p.1 → ∀ at_ s, f s ⟨p.1, p.2, at_⟩ = .ok s) :
    (placed cursor ps).foldlM f s =
      (placed (cursor + (paramsBytes (segment 0 lo ps)).length) (segment lo hi ps)).foldlM f s := by
  have hsplit : ps = segment 0 lo ps ++ (segment lo hi ps ++ segment hi 65536 ps) := by
    rw [← segment_append hsend.ascending hle hhi, ← segment_append hsend.ascending (Nat.zero_le lo) (hle.trans hhi),
      segment_all hsend]
  nth_rewrite 1 [hsplit]
  rw [placed_append, placed_append, foldlM_append,
    foldlM_ignored cursor fun p hp at_ => h p (.inl (mem_segment.mp hp).2.2) at_ s]
  dsimp only [bind, Except.bind]
  rw [foldlM_append]
  cases (placed (cursor + (paramsBytes (segment 0 lo ps)).length) (segment lo hi ps)).foldlM f s with
  | error e => rfl
  | ok found => exact foldlM_ignored _ fun p hp at_ => h p (.inr (mem_segment.mp hp).2.1) at_ found

theorem rangeOf_eq (hsend : Sendable ps) (hle : lo ≤ hi) (pos : ℕ) : rangeOf pos lo hi ps =
    (pos + (paramsBytes (segment 0 lo ps)).length,
      pos + (paramsBytes (segment 0 lo ps)).length + (paramsBytes (segment lo hi ps)).length) := by
  rw [rangeOf, segment_append hsend.ascending (Nat.zero_le lo) hle, paramsBytes_append, length_append, Nat.add_assoc]

theorem echParam_eq (h : Service rdata head ps) : echParam rdata = .ok
    (if segment 5 6 ps = [] then none else some (rangeOf head.length 5 6 ps)) := by
  have hign : ∀ p : ℕ × Bytes, p.1 < 5 ∨ 6 ≤ p.1 → ∀ (at_ : Range) (found : Option Range),
      (.ok (if p.1 = svcparamEch then some at_ else found) : Except DnsError _) = .ok found := by
    intro p hp at_ found
    rw [if_neg]
    unfold svcparamEch
    omega
  rw [echParam, h.fold, foldlM_segment h.sendable (by omega) (by omega) hign, rangeOf_eq h.sendable (by omega)]
  obtain hnone | ⟨value, hone⟩ := segment_one h.sendable.ascending 5
  · rw [hnone]
    rfl
  · rw [hone]
    simp [placed, paramsBytes, length_paramBytes, svcparamEch, Nat.add_assoc]

/-- An `alpn` among the parameters offers HTTP/3. -/
def offersH3 (ps : List (ℕ × Bytes)) : Bool :=
  (segment 1 2 ps).any fun p => (alpnOffersH3 p.2 0).toOption = some true

theorem h3AlpnParam_eq (h : Service rdata head ps) (hfound : h3AlpnParam rdata = .ok found) :
    found = if offersH3 ps then some (rangeOf head.length 1 3 ps) else none := by
  rw [h3AlpnParam, h.fold, foldlM_segment h.sendable (show 1 ≤ 3 by omega) (by omega) ?_] at hfound
  · rw [rangeOf_eq h.sendable (by omega)]
    rw [segment_append h.sendable.ascending (show 1 ≤ 2 by omega) (show 2 ≤ 3 by omega)] at hfound ⊢
    unfold offersH3
    obtain htwo | ⟨value, htwo⟩ := segment_one h.sendable.ascending 2 <;> rw [htwo] at hfound ⊢ <;>
      obtain hone | ⟨alpn, hone⟩ := segment_one h.sendable.ascending 1 <;> rw [hone] at hfound ⊢
    · cases hfound
      rfl
    · cases hoff : alpnOffersH3 alpn 0 with
      | error e => simp [placed, svcparamAlpn, hoff] at hfound
      | ok h3 =>
        cases h3 <;>
          simp_all [placed, svcparamAlpn, paramsBytes, length_paramBytes, Except.toOption, Nat.add_assoc]
    · cases hfound
      rfl
    rcases hoff : alpnOffersH3 alpn 0 with _ | h3
    · simp [placed, svcparamAlpn, hoff, bind, Except.bind] at hfound
    cases h3 <;> simp_all [placed, svcparamAlpn, svcparamNoDefaultAlpn, paramsBytes, length_paramBytes, Except.toOption,
      Nat.add_assoc, bind, Except.bind, pure, Except.pure]
  · intro p hp at_ found
    dsimp only
    unfold svcparamAlpn svcparamNoDefaultAlpn
    rw [if_neg (by omega), if_neg (by omega)]

/-! ### RDATA without the cuts -/

theorem Rdata.get_middle (xs ys zs : Bytes) :
    Rdata.get (xs ++ ys ++ zs) xs.length (xs.length + ys.length) = some ys := by
  unfold Rdata.get
  rw [if_pos (by simp), Nat.add_sub_cancel_left, (stands_middle xs ys zs).slice_eq]

theorem Rdata.without_middle (xs ys zs : Bytes) :
    Rdata.without (xs ++ ys ++ zs) (xs.length, xs.length + ys.length) = some ⟨[xs, zs]⟩ := by
  have hfirst := Rdata.get_middle [] xs (ys ++ zs)
  have hlast := Rdata.get_middle (xs ++ ys) zs []
  simp only [nil_append, append_nil, length_nil, Nat.zero_add, ← append_assoc] at hfirst hlast
  have hlen : (xs ++ ys ++ zs).length = (xs ++ ys).length + zs.length := length_append
  unfold Rdata.without
  rw [hfirst, hlen, ← length_append, hlast]
  rfl

theorem Rdata.withoutBoth_middle (xs ys zs us vs : Bytes) :
    Rdata.withoutBoth (xs ++ ys ++ zs ++ us ++ vs) (xs.length, xs.length + ys.length)
      ((xs ++ ys ++ zs).length, (xs ++ ys ++ zs).length + us.length) = some ⟨[xs, zs, vs]⟩ := by
  have hfirst := Rdata.get_middle [] xs (ys ++ zs ++ us ++ vs)
  have hmid := Rdata.get_middle (xs ++ ys) zs (us ++ vs)
  have hlast := Rdata.get_middle (xs ++ ys ++ zs ++ us) vs []
  simp only [nil_append, append_nil, length_nil, Nat.zero_add, ← append_assoc] at hfirst hmid hlast
  rw [← length_append] at hmid hlast
  unfold Rdata.withoutBoth
  rw [if_neg (by simp), hfirst]
  rw [← length_append, ← length_append, hmid, hlast]
  rfl

theorem Rdata.withoutAll_parts (xs ys zs us vs : Bytes) (first second : Bool) :
    ∃ rdata, Rdata.withoutAll (xs ++ ys ++ zs ++ us ++ vs)
        (if first then some (xs.length, xs.length + ys.length) else none)
        (if second then some ((xs ++ ys ++ zs).length, (xs ++ ys ++ zs).length + us.length) else none) = some rdata ∧
      rdata.bytes = xs ++ (if first then [] else ys) ++ zs ++ (if second then [] else us) ++ vs := by
  cases first <;> cases second
  · exact ⟨_, rfl, by simp [Rdata.bytes, Rdata.verbatim]⟩
  · refine ⟨_, Rdata.without_middle (xs ++ ys ++ zs) us vs, ?_⟩
    simp [Rdata.bytes]
  · have hcut := Rdata.without_middle xs ys (zs ++ us ++ vs)
    simp only [← append_assoc] at hcut
    refine ⟨_, hcut, ?_⟩
    simp [Rdata.bytes]
  · refine ⟨_, (if_pos ?_).trans (Rdata.withoutBoth_middle xs ys zs us vs), ?_⟩
    · simp
    · simp [Rdata.bytes]

/-- The parameters that a policy leaves: `ech` goes where it is stripped, and an `alpn` that offers HTTP/3 takes the
`no-default-alpn` with it. -/
def keeps (policy : AnswerPolicy) (ps : List (ℕ × Bytes)) (p : ℕ × Bytes) : Bool :=
  !(policy.ech = .strip && p.1 = svcparamEch) &&
    !(policy.alpn = .stripH3 && offersH3 ps && (p.1 = svcparamAlpn || p.1 = svcparamNoDefaultAlpn))

theorem segments (hsend : Sendable ps) :
    ps = segment 0 1 ps ++ segment 1 3 ps ++ segment 3 5 ps ++ segment 5 6 ps ++ segment 6 65536 ps := by
  have hsort := hsend.ascending
  rw [← segment_append hsort (Nat.zero_le 1) (by omega), ← segment_append hsort (Nat.zero_le 3) (by omega),
    ← segment_append hsort (Nat.zero_le 5) (by omega), ← segment_append hsort (Nat.zero_le 6) (by omega),
    segment_all hsend]

theorem filter_keeps (hsend : Sendable ps) (pol : AnswerPolicy) : ps.filter (keeps pol ps) =
    segment 0 1 ps ++ (if pol.alpn = .stripH3 ∧ offersH3 ps then [] else segment 1 3 ps) ++ segment 3 5 ps ++
      (if pol.ech = .strip then [] else segment 5 6 ps) ++ segment 6 65536 ps := by
  have hself : ∀ {lo hi : ℕ}, (∀ k, lo ≤ k → k < hi → k ≠ 1 ∧ k ≠ 2 ∧ k ≠ 5) →
      (segment lo hi ps).filter (keeps pol ps) = segment lo hi ps := by
    intro lo hi hother
    refine filter_eq_self.mpr fun p hp => ?_
    obtain ⟨hlo, hhi⟩ := (mem_segment.mp hp).2
    obtain ⟨h1, h2, h5⟩ := hother p.1 hlo hhi
    simp [keeps, svcparamEch, svcparamAlpn, svcparamNoDefaultAlpn, h1, h2, h5]
  have halpn : (segment 1 3 ps).filter (keeps pol ps) =
      if pol.alpn = .stripH3 ∧ offersH3 ps then [] else segment 1 3 ps := by
    split_ifs with hcut
    · refine filter_eq_nil_iff.mpr fun p hp => ?_
      have hkey : p.1 = 1 ∨ p.1 = 2 := by
        have := (mem_segment.mp hp).2
        omega
      obtain hkey | hkey := hkey <;> simp [keeps, svcparamAlpn, svcparamNoDefaultAlpn, hcut, hkey]
    · refine filter_eq_self.mpr fun p hp => ?_
      have hne : p.1 ≠ 5 := by
        have := (mem_segment.mp hp).2
        omega
      obtain hpreserve | hoff := not_and_or.mp hcut
      · simp [keeps, svcparamEch, hne, hpreserve]
      · simp [keeps, svcparamEch, hne, hoff]
  have hech : (segment 5 6 ps).filter (keeps pol ps) = if pol.ech = .strip then [] else segment 5 6 ps := by
    have hkey : ∀ p ∈ segment 5 6 ps, p.1 = 5 := fun p hp => by
      have := (mem_segment.mp hp).2
      omega
    split_ifs with hcut
    · exact filter_eq_nil_iff.mpr fun p hp => by simp [keeps, svcparamEch, hkey p hp, hcut]
    · exact filter_eq_self.mpr fun p hp => by
        simp [keeps, svcparamAlpn, svcparamNoDefaultAlpn, hkey p hp, hcut]
  nth_rewrite 2 [segments hsend]
  rw [filter_append, filter_append, filter_append, filter_append, hself (by omega), halpn,
    hself (by omega), hech, hself (by omega)]

/-- **What a policy leaves of a record with parameters**: its head, and the parameters that it keeps. -/
theorem answerRdata_eq (pol : AnswerPolicy)
    (hsvc : answer.rtype.carriesSvcParams = true) (hpars : answerParams answer = .ok params) :
    ∃ rdata head ps, answerRdata pol answer params = some rdata ∧ Service answer.rdata head ps ∧
      Service rdata.bytes head (ps.filter (keeps pol ps)) := by
  unfold answerParams at hpars
  rw [if_pos hsvc] at hpars
  simp only [bind_eq_ok] at hpars
  obtain ⟨ech, hech, alpn, halpn, hpars⟩ := hpars
  cases hpars
  obtain ⟨head, ps, hserv, -⟩ := service_of_fold hech
  rw [echParam_eq hserv] at hech
  cases hech
  obtain rfl := h3AlpnParam_eq hserv halpn
  have hsend := hserv.sendable
  have hwhole : answer.rdata = head ++ paramsBytes (segment 0 1 ps) ++ paramsBytes (segment 1 3 ps) ++
      paramsBytes (segment 3 5 ps) ++ paramsBytes (segment 5 6 ps) ++ paramsBytes (segment 6 65536 ps) := by
    nth_rewrite 1 [hserv.rdata_eq, segments hsend]
    simp only [paramsBytes_append, append_assoc]
  have hfive : segment 0 5 ps = segment 0 1 ps ++ segment 1 3 ps ++ segment 3 5 ps := by
    rw [← segment_append hsend.ascending (Nat.zero_le 1) (by omega),
      ← segment_append hsend.ascending (Nat.zero_le 3) (by omega)]
  obtain ⟨rdata, hrdata, hbytes⟩ := Rdata.withoutAll_parts (head ++ paramsBytes (segment 0 1 ps))
    (paramsBytes (segment 1 3 ps)) (paramsBytes (segment 3 5 ps)) (paramsBytes (segment 5 6 ps))
    (paramsBytes (segment 6 65536 ps)) (pol.alpn = .stripH3 ∧ offersH3 ps) (pol.ech = .strip ∧ segment 5 6 ps ≠ [])
  refine ⟨rdata, head, ps, ?_, hserv, ?_⟩
  · rw [← hrdata, answerRdata, rangeOf_eq hsend (by omega), rangeOf_eq hsend (by omega), hfive]
    congr 1
    · by_cases hpol : pol.alpn = .stripH3 <;> cases offersH3 ps <;> simp [hpol]
    · by_cases hpol : pol.ech = .strip <;> by_cases hnone : segment 5 6 ps = [] <;>
        simp [hpol, hnone, paramsBytes_append]
  · have hfilt : rdata.bytes = head ++ paramsBytes (ps.filter (keeps pol ps)) := by
      rw [hbytes, filter_keeps hsend]
      by_cases halpn : pol.alpn = .stripH3 ∧ offersH3 ps = true <;> by_cases hpol : pol.ech = .strip <;>
        by_cases hnone : segment 5 6 ps = [] <;> simp [halpn, hpol, hnone, paramsBytes]
    rw [hfilt]
    exact hserv.sublist filter_sublist

end Boreas.Dns
