import Boreas.DnsMeaning
import Boreas.SteeredAnswers

/-! # What is read of a written answer

* `reads_back`: a response that `writeResponseAged` writes parses with the client's id and question, the flags of both
  sides and, record by record, the upstream's answers.
* `mandatory_kept_iff`: a record whose `mandatory` keys are present still has them after stripping, exactly when none
  of them is cut.
* `strips_exactly`: what is left of a record is its head and the parameters that the policy keeps. -/

namespace Boreas.Dns

open List hiding cons head nil
open Message (parse rcode)

/-! ### Reading back -/

/-- The record that is read back for one of the upstream's. -/
structure ReadBack (policy : AnswerPolicy) (age : ℕ) (old new : ResourceRecord) : Prop where
  name : new.name = old.name
  rtype : new.rtype = old.rtype
  class_ : new.class_ = old.class_
  ttl : new.ttl = old.ttl - age
  plain : old.rtype.carriesSvcParams = false → new.rdata = old.rdata
  params : old.rtype.carriesSvcParams = true →
    ∃ head ps, Service old.rdata head ps ∧ Service new.rdata head (ps.filter (keeps policy ps))

variable {policy : AnswerPolicy} {age : ℕ}

theorem Rewrites.readBack (h : Rewrites policy age old new) : ReadBack policy age old new := by
  refine ⟨h.name, h.rtype, h.class_, h.ttl, h.rdata_eq, fun hsvc => ?_⟩
  obtain ⟨params, rdata, hpars, hrdata, hnew⟩ := h.rdata
  obtain ⟨rdata', head, ps, hrdata', hold, hleft⟩ := answerRdata_eq policy hsvc hpars
  cases hrdata.symm.trans hrdata'
  exact ⟨head, ps, hold, hnew ▸ hleft⟩

/-- What the flags of a response say: each is of the side it comes from. -/
structure FlagsOf (query upstream w : Message) : Prop where
  isResponse : w.isResponse = true
  recursionDesired : w.recursionDesired = query.recursionDesired
  checkingDisabled : w.checkingDisabled = query.checkingDisabled
  authenticData : w.authenticData = upstream.authenticData
  isTruncated : w.isTruncated = upstream.isTruncated
  rcode : w.rcode = upstream.rcode

theorem toWire_rcode (flags : BitVec 16) : ∃ n : Fin 16, (Rcode.fromWire flags).toWire = BitVec.ofNat 16 n ∧
    Rcode.fromWire (BitVec.ofNat 16 n) = Rcode.fromWire flags := by
  have hlt : (flags &&& rcodeMask).toNat < 16 := by
    exact Nat.lt_succ_of_le Nat.and_le_right
  have hmask : (flags &&& rcodeMask) &&& rcodeMask = flags &&& rcodeMask := by
    rw [BitVec.and_assoc, BitVec.and_self]
  refine ⟨⟨(flags &&& rcodeMask).toNat, hlt⟩, ?_, ?_⟩
  · rw [BitVec.ofNat_toNat]
    unfold Rcode.fromWire
    split_ifs <;> simp_all [Rcode.toWire]
  · rw [BitVec.ofNat_toNat, BitVec.setWidth_eq, Rcode.fromWire, hmask]
    rfl

theorem flags_parts : ∀ (n : Fin 16) (rd cd ad tc : Bool),
    let flags := flagResponse ||| flagRecursionAvailable ||| BitVec.ofNat 16 n |||
      (if rd then flagRecursionDesired else 0) ||| (if cd then flagCheckingDisabled else 0) |||
      (if ad then flagAuthenticData else 0) ||| (if tc then flagTruncated else 0)
    flags &&& flagResponse ≠ 0 ∧ decide (flags &&& flagRecursionDesired ≠ 0) = rd ∧
      decide (flags &&& flagCheckingDisabled ≠ 0) = cd ∧ decide (flags &&& flagAuthenticData ≠ 0) = ad ∧
      decide (flags &&& flagTruncated ≠ 0) = tc ∧ Rcode.fromWire flags = Rcode.fromWire (BitVec.ofNat 16 n) := by
  decide

theorem flagsOf_response (h : w.flags = responseFlags query upstream) : FlagsOf query upstream w := by
  obtain ⟨n, hn, hrcode⟩ := toWire_rcode upstream.flags
  have hparts := flags_parts n query.recursionDesired query.checkingDisabled upstream.authenticData upstream.isTruncated
  rw [hrcode, ← hn] at hparts
  obtain ⟨hresp, hrd, hcd, had, htc, hcode⟩ := hparts
  have hflags : w.flags = _ := h
  refine ⟨?_, ?_, ?_, ?_, ?_, ?_⟩
  · rw [Message.isResponse, hflags]
    exact decide_eq_true hresp
  · rw [Message.recursionDesired, hflags]
    exact hrd
  · rw [Message.checkingDisabled, hflags]
    exact hcd
  · rw [Message.authenticData, hflags]
    exact had
  · rw [Message.isTruncated, hflags]
    exact htc
  · rw [rcode, hflags]
    exact hcode

/-- **A rewritten response reads back as the upstream's answer.** -/
theorem reads_back {qbytes ubytes out out' : Bytes} {query upstream : Message} {r : Rewritten}
    (hquery : parse qbytes = .ok query) (hupstream : parse ubytes = .ok upstream)
    (hwrite : writeResponseAged out query upstream policy age = .ok (out', r)) :
    (out'.take r.len).length = r.len ∧ r.len ≤ out.length ∧
    ∃ w olds news, parse (out'.take r.len) = .ok w ∧ w.id = query.id ∧ w.question = query.question ∧
      FlagsOf query upstream w ∧ upstream.answers = .ok olds ∧ w.answers = .ok news ∧ w.answerCount = olds.length ∧
      Forall₂ (fun old new => ReadBack policy age old.1 new.1) olds news := by
  obtain ⟨-, -, -, -, -, -, hle, hlen⟩ := writeResponseAged_spec hwrite
  obtain ⟨olds, news, w, holds, hall, -, hparse, hans, hcount, hques, hid, hflags⟩ :=
    answers_written hquery hupstream hwrite
  refine ⟨length_take_of_le (hlen ▸ hle), hle, w, olds, _, hparse, hid, hques, flagsOf_response hflags, holds,
    hans, hcount.trans hall.length_eq.symm, ?_⟩
  rw [← forall₂_map_right_iff, map_fst_laidAt]
  exact hall.imp fun _ _ h => h.readBack

/-- A CNAME that is twenty seconds old. -/
theorem reads_back_anchoredReply : ∃ query upstream out' r w, parse anchoredQuery = .ok query ∧
    parse anchoredReply = .ok upstream ∧
    writeResponseAged (List.replicate 64 0) query upstream ⟨.strip, .stripH3⟩ 20 = .ok (out', r) ∧
    parse (out'.take r.len) = .ok w ∧ w.id = query.id ∧ FlagsOf query upstream w := by
  obtain ⟨x, hx, -⟩ : ∃ x, respond anchoredQuery anchoredReply (List.replicate 64 0) ⟨.strip, .stripH3⟩ 20 = .ok x ∧
      True := holds_of_ok (by decide +kernel)
  obtain ⟨hq, hu, hw⟩ := respond_eq_ok hx
  obtain ⟨-, -, w, -, -, hparse, hid, -, hflags, -⟩ := reads_back hq hu hw
  exact ⟨x.1.1, x.1.2, x.2.1, x.2.2, w, hq, hu, hw, hparse, hid, hflags⟩

/-! ### Mandatory keys -/

def svcparamMandatory : ℕ := 0

/-- The keys in the value of a `mandatory` parameter, two bytes each. -/
def keyList : Bytes → List ℕ
  | high :: low :: rest => fromBeBytes high low :: keyList rest
  | _ => []

def mandatoryKeys (ps : List (ℕ × Bytes)) : List ℕ :=
  (ps.filter fun p => p.1 = svcparamMandatory).flatMap fun p => keyList p.2

/-- Every key that is listed is present. -/
def mandatoryMet (ps : List (ℕ × Bytes)) : Bool := (mandatoryKeys ps).all fun k => ps.any fun p => p.1 = k

theorem mandatoryMet_iff (ps : List (ℕ × Bytes)) :
    mandatoryMet ps = true ↔ ∀ k ∈ mandatoryKeys ps, ∃ p ∈ ps, p.1 = k := by
  simp [mandatoryMet]

theorem keeps_eq_false_iff : keeps policy ps p = false ↔
    (policy.ech = .strip ∧ p.1 = svcparamEch) ∨ (policy.alpn = .stripH3 ∧ offersH3 ps = true ∧
      (p.1 = svcparamAlpn ∨ p.1 = svcparamNoDefaultAlpn)) := by
  rw [keeps, ← Bool.not_or, Bool.not_eq_false']
  simp [and_assoc]

theorem mandatoryKeys_keeps : mandatoryKeys (ps.filter (keeps policy ps)) = mandatoryKeys ps := by
  unfold mandatoryKeys
  rw [filter_filter]
  congr 1
  refine filter_congr fun p _ => ?_
  by_cases hkey : p.1 = svcparamMandatory
  · simp [hkey, keeps, svcparamMandatory, svcparamEch, svcparamAlpn, svcparamNoDefaultAlpn]
  · simp [hkey]

/-- **Mandatory keys survive the stripping** exactly when the policy cuts none of them. -/
theorem mandatory_kept_iff (policy : AnswerPolicy) {answer : ResourceRecord} {params : Option Range × Option Range}
    {ps : List (ℕ × Bytes)} (hsvc : answer.rtype.carriesSvcParams = true) (hparams : answerParams answer = .ok params)
    (hps : svcParams answer.rdata = .ok ps) (hmet : mandatoryMet ps = true) :
    (∃ rdata qs, answerRdata policy answer params = some rdata ∧ svcParams rdata.bytes = .ok qs ∧ mandatoryMet qs = true) ↔
      (policy.ech = .strip → svcparamEch ∉ mandatoryKeys ps) ∧ (policy.alpn = .stripH3 → offersH3 ps = true →
        svcparamAlpn ∉ mandatoryKeys ps ∧ svcparamNoDefaultAlpn ∉ mandatoryKeys ps) := by
  obtain ⟨rdata, head, ps', hrdata, hold, hleft⟩ := answerRdata_eq policy hsvc hparams
  cases hps.symm.trans (svcParams_of_service hold)
  have hqs := svcParams_of_service hleft
  rw [mandatoryMet_iff] at hmet
  have hkept : (∃ rdata qs, answerRdata policy answer params = some rdata ∧ svcParams rdata.bytes = .ok qs ∧
      mandatoryMet qs = true) ↔ ∀ k ∈ mandatoryKeys ps, ∃ p ∈ ps, keeps policy ps p = true ∧ p.1 = k := by
    have hiff := mandatoryMet_iff (ps.filter (keeps policy ps))
    rw [mandatoryKeys_keeps] at hiff
    simp only [mem_filter, and_assoc] at hiff
    rw [← hiff]
    constructor
    · rintro ⟨rdata', qs, hrdata', hqs', h⟩
      cases hrdata.symm.trans hrdata'
      cases hqs.symm.trans hqs'
      exact h
    · exact fun h => ⟨rdata, _, hrdata, hqs, h⟩
  rw [hkept]
  constructor
  · intro h
    have hcut : ∀ {k : ℕ}, k ∈ mandatoryKeys ps → ¬ ((policy.ech = .strip ∧ k = svcparamEch) ∨
        (policy.alpn = .stripH3 ∧ offersH3 ps = true ∧ (k = svcparamAlpn ∨ k = svcparamNoDefaultAlpn))) := by
      intro k hk hcut
      obtain ⟨p, -, hkeeps, rfl⟩ := h k hk
      rw [keeps_eq_false_iff.mpr hcut] at hkeeps
      cases hkeeps
    exact ⟨fun hstrip hk => hcut hk (.inl ⟨hstrip, rfl⟩), fun hstrip hoff =>
      ⟨fun hk => hcut hk (.inr ⟨hstrip, hoff, .inl rfl⟩), fun hk => hcut hk (.inr ⟨hstrip, hoff, .inr rfl⟩)⟩⟩
  · rintro ⟨hech, halpn⟩ k hk
    obtain ⟨p, hp, rfl⟩ := hmet k hk
    refine ⟨p, hp, Bool.eq_true_of_not_eq_false fun hcut => ?_, rfl⟩
    obtain ⟨hstrip, hkey⟩ | ⟨hstrip, hoff, hkey | hkey⟩ := keeps_eq_false_iff.mp hcut
    · exact hech hstrip (hkey ▸ hk)
    · exact (halpn hstrip hoff).1 (hkey ▸ hk)
    · exact (halpn hstrip hoff).2 (hkey ▸ hk)

/-- An HTTPS record for the root with these parameters. -/
def recordWith (ps : List (ℕ × Bytes)) : ResourceRecord := ⟨.root, .https, 1, 60, [0, 1, 0] ++ paramsBytes ps⟩

def hintRecord : ResourceRecord := recordWith [(0, [0, 4]), (4, [192, 0, 2, 1]), (5, [9])]

theorem mandatory_hint_kept : ∃ params rdata qs, answerParams hintRecord = .ok params ∧
    answerRdata ⟨.strip, .stripH3⟩ hintRecord params = some rdata ∧ svcParams rdata.bytes = .ok qs ∧
      mandatoryMet qs = true := by
  obtain ⟨params, hpars, -⟩ : ∃ params, answerParams hintRecord = .ok params ∧ True :=
    holds_of_ok (by decide +kernel)
  obtain ⟨ps, hps, hmet, hech, halpn⟩ : ∃ ps, svcParams hintRecord.rdata = .ok ps ∧ mandatoryMet ps = true ∧
      svcparamEch ∉ mandatoryKeys ps ∧ offersH3 ps = false := holds_of_ok (by decide +kernel)
  obtain ⟨rdata, qs, h⟩ := (mandatory_kept_iff ⟨.strip, .stripH3⟩ rfl hpars hps hmet).mpr
    ⟨fun _ => hech, fun _ hoff => by rw [halpn] at hoff; cases hoff⟩
  exact ⟨params, rdata, qs, hpars, h⟩

/-- The keys listed are there before `ech` is stripped, and not afterwards. -/
theorem mandatory_ech_cut : (svcParams (recordWith [(0, [0, 5]), (5, [9])]).rdata).toOption.any mandatoryMet = true ∧
    ((answerParams (recordWith [(0, [0, 5]), (5, [9])])).toOption.bind
      (answerRdata ⟨.strip, .preserve⟩ (recordWith [(0, [0, 5]), (5, [9])]))).any (fun rdata =>
        (svcParams rdata.bytes).toOption.any fun qs => !mandatoryMet qs) = true := by
  decide +kernel

/-! ### Exactly what is stripped -/

theorem foldlM_error {f : σ → SvcParam → Except DnsError σ} (pos : ℕ)
    (h : (placed pos ps).foldlM f s = .error e) : ∃ p ∈ ps, ∃ at_ s, f s ⟨p.1, p.2, at_⟩ = .error e := by
  induction ps generalizing pos s with
  | nil => cases h
  | cons p ps ih =>
    rw [placed, foldlM_cons] at h
    rcases hf : f s ⟨p.1, p.2, (pos, pos + 4 + p.2.length)⟩ with _ | s'
    · rw [hf] at h
      cases h
      exact ⟨p, mem_cons_self, _, s, hf⟩
    rw [hf] at h
    obtain ⟨q, hq, hfq⟩ := ih _ h
    exact ⟨q, mem_cons_of_mem p hq, hfq⟩

theorem answerParams_error (hsvc : answer.rtype.carriesSvcParams = true) (h : Service answer.rdata head ps)
    (herror : answerParams answer = .error e) :
    ∃ value, (svcparamAlpn, value) ∈ ps ∧ alpnOffersH3 value 0 = .error e := by
  rw [answerParams, if_pos hsvc, echParam_eq h] at herror
  cases hh3 : h3AlpnParam answer.rdata with
  | ok found =>
    rw [hh3] at herror
    cases herror
  | error e' =>
    rw [hh3] at herror
    cases herror
    rw [h3AlpnParam, h.fold] at hh3
    obtain ⟨⟨key, value⟩, hp, at_, s, hf⟩ := foldlM_error _ hh3
    split_ifs at hf with hkey
    subst hkey
    refine ⟨value, hp, ?_⟩
    cases halpn : alpnOffersH3 value 0 with
    | ok h3 =>
      rw [halpn] at hf
      cases hf
    | error e =>
      rw [halpn] at hf
      cases hf
      rfl

/-- **Stripping removes exactly the advertised parameters**: priority and target stay, and the parameters left are
those that `keeps` keeps, in their order.  Nothing is written only where an `alpn` list cannot be read. -/
theorem strips_exactly (policy : AnswerPolicy) {answer : ResourceRecord} {ps : List (ℕ × Bytes)}
    (hsvc : answer.rtype.carriesSvcParams = true) (hps : svcParams answer.rdata = .ok ps) :
    (∃ head, Service answer.rdata head ps ∧ ∀ params, answerParams answer = .ok params →
      ∃ rdata, answerRdata policy answer params = some rdata ∧
        rdata.bytes = head ++ paramsBytes (ps.filter (keeps policy ps)) ∧
        svcParams rdata.bytes = .ok (ps.filter (keeps policy ps)) ∧
        ((∀ p ∈ ps, keeps policy ps p = true) → rdata.bytes = answer.rdata)) ∧
    (∀ p, keeps policy ps p = false ↔ policy.ech = .strip ∧ p.1 = svcparamEch ∨
      policy.alpn = .stripH3 ∧ offersH3 ps = true ∧ (p.1 = svcparamAlpn ∨ p.1 = svcparamNoDefaultAlpn)) ∧
    ∀ e, answerParams answer = .error e → ∃ value, (svcparamAlpn, value) ∈ ps ∧ alpnOffersH3 value 0 = .error e := by
  obtain ⟨head, ps', hserv, -⟩ := service_of_fold hps
  cases hps.symm.trans (svcParams_of_service hserv)
  refine ⟨⟨head, hserv, fun params hpars => ?_⟩, fun p => keeps_eq_false_iff,
    fun e => answerParams_error hsvc hserv⟩
  obtain ⟨rdata, head', ps', hrdata, hold, hleft⟩ := answerRdata_eq policy hsvc hpars
  cases hps.symm.trans (svcParams_of_service hold)
  have hhead : head' = head := append_cancel_right (hold.rdata_eq.symm.trans hserv.rdata_eq)
  subst hhead
  refine ⟨rdata, hrdata, hleft.rdata_eq, svcParams_of_service hleft, fun hall => ?_⟩
  rw [hleft.rdata_eq, filter_eq_self.mpr hall, ← hold.rdata_eq]

theorem strips_exactly_hint : ∃ ps rdata, svcParams hintRecord.rdata = .ok ps ∧
    svcParams (Rdata.bytes rdata) = .ok (ps.filter (keeps ⟨.strip, .stripH3⟩ ps)) := by
  obtain ⟨params, hpars, -⟩ : ∃ params, answerParams hintRecord = .ok params ∧ True :=
    holds_of_ok (by decide +kernel)
  obtain ⟨ps, hps, -⟩ : ∃ ps, svcParams hintRecord.rdata = .ok ps ∧ True := holds_of_ok (by decide +kernel)
  obtain ⟨⟨head, -, h⟩, -⟩ := strips_exactly ⟨.strip, .stripH3⟩ rfl hps
  obtain ⟨rdata, -, -, hleft, -⟩ := h params hpars
  exact ⟨ps, rdata, hps, hleft⟩

end Boreas.Dns
