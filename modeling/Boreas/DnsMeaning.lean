import Boreas.DnsWritten

/-! # Domain names in rewritten answers

`writeResponseAged` copies RDATA as it is, but lays the message out anew, so that only the question keeps its place.
`KeepsNames` says that the names read from CNAME, NS, PTR, MX and SOA records stay the same; `keepsNames_of_anchored`
shows it when every pointer leads into the question. -/

namespace Boreas.Dns

open List Message Option Slices

/-! ### Names in RDATA -/

variable (message : Bytes)

def nameIn (at_ limit : ℕ) : Option (Name × ℕ) :=
  match Name.read message at_ with
  | .ok (name, n) => if at_ + n ≤ limit then some (name, at_ + n) else none
  | .error _ => none

/-- The places of the names in RDATA of `len` bytes at `at_`: NS, CNAME and PTR hold one name, MX one after a
preference, SOA two. -/
def namePlaces (rtype : RecordType) (at_ len : ℕ) : List ℕ :=
  if rtype.toWire = 2 ∨ rtype.toWire = 5 ∨ rtype.toWire = 12 then [at_]
  else if rtype.toWire = 15 then [at_ + 2]
  else if rtype.toWire = 6 then
    match nameIn message at_ (at_ + len) with
    | some (_, second) => [at_, second]
    | none => [at_]
  else []

def rdataNames (rtype : RecordType) (at_ len : ℕ) : Option (List Name) :=
  match namePlaces message rtype at_ len with
  | [] => none
  | places => places.mapM (fun p => (nameIn message p (at_ + len)).map Prod.fst)

def carriedNames (answers : List (ResourceRecord × ℕ)) : List (Option (List Name)) :=
  answers.map (fun a => rdataNames message a.1.rtype a.2 a.1.rdata.length)

/-- The written message has the answers of the upstream one, and each carries the names it carried there. -/
def KeepsNames (upstream : Message) (bytes : Bytes) : Prop :=
  ∃ answers w answers', upstream.answers = .ok answers ∧ parse bytes = .ok w ∧ w.answers = .ok answers' ∧
    Forall₂ (fun names names' => ∀ ns, names = some ns → names' = some ns)
      (carriedNames upstream.bytes answers) (carriedNames bytes answers')

instance (upstream : Message) (bytes : Bytes) : Decidable (KeepsNames upstream bytes) :=
  match hu : upstream.answers, hp : parse bytes with
  | .ok answers, .ok w =>
    match hw : w.answers with
    | .ok answers' =>
      decidable_of_iff (Forall₂ (fun names names' => ∀ ns ∈ names, names' = some ns)
          (carriedNames upstream.bytes answers) (carriedNames bytes answers')) (by
        simp [KeepsNames, hu, hp, hw])
    | .error _ => isFalse (by simp [KeepsNames, hp, hw])
  | .error _, _ => isFalse (by simp [KeepsNames, hu])
  | .ok _, .error _ => isFalse (by simp [KeepsNames, hp])

/-! ### Pointers to the question -/

def pointerFrom (message : Bytes) : ℕ → ℕ → Option ℕ
  | 0, _ => none
  | fuel + 1, cursor =>
    match message[cursor]? with
    | none => none
    | some length =>
      if length = 0 then none
      else if length.toNat < 64 then pointerFrom message fuel (cursor + 1 + length.toNat)
      else if 192 ≤ length.toNat then (message[cursor + 1]?).map (pointerTarget length)
      else none

def labelStarts (message : Bytes) : ℕ → ℕ → List ℕ
  | 0, _ => []
  | fuel + 1, cursor =>
    cursor ::
      match message[cursor]? with
      | none => []
      | some length =>
        if length = 0 ∨ 64 ≤ length.toNat then []
        else labelStarts message fuel (cursor + 1 + length.toNat)

/-- The name at a place is not compressed, or its pointer leads to a label of the question name, which the query
and the upstream message share. -/
def Anchored (query upstream : Message) (at_ : ℕ) : Prop :=
  ∀ target, pointerFrom upstream.bytes upstream.bytes.length at_ = some target →
    query.question.name = upstream.question.name ∧
      target ∈ labelStarts upstream.bytes upstream.bytes.length headerBytes

/-- So are the names of every answer whose names can be read. -/
def NamesAnchored (query upstream : Message) : Prop :=
  ∀ answers, upstream.answers = .ok answers → ∀ a ∈ answers,
    (rdataNames upstream.bytes a.1.rtype a.2 a.1.rdata.length).isSome →
      ∀ p ∈ namePlaces upstream.bytes a.1.rtype a.2 a.1.rdata.length, Anchored query upstream p

instance (query upstream : Message) (at_ : ℕ) : Decidable (Anchored query upstream at_) :=
  decidable_of_iff (∀ target ∈ pointerFrom upstream.bytes upstream.bytes.length at_,
    query.question.name = upstream.question.name ∧
      target ∈ labelStarts upstream.bytes upstream.bytes.length headerBytes) Iff.rfl

instance (query upstream : Message) : Decidable (NamesAnchored query upstream) :=
  match h : upstream.answers with
  | .error _ => isTrue (by simp [NamesAnchored, h])
  | .ok answers =>
    decidable_of_iff (∀ a ∈ answers, (rdataNames upstream.bytes a.1.rtype a.2 a.1.rdata.length).isSome →
      ∀ p ∈ namePlaces upstream.bytes a.1.rtype a.2 a.1.rdata.length, Anchored query upstream p)
      (by simp [NamesAnchored, h])

variable {message : Bytes}

theorem pointerFrom_of_labels (h192 : 192 ≤ high.toNat) :
    ∀ {ls : List Bytes} {fuel pos : ℕ}, (∀ l ∈ ls, LabelOk l) → ls.length < fuel →
      Stands message pos (wireLabels ls) → message[pos + (wireLabels ls).length]? = some high →
      message[pos + (wireLabels ls).length + 1]? = some low →
      pointerFrom message fuel pos = some (pointerTarget high low) := by
  intro ls
  induction ls with
  | nil =>
    intro fuel pos _ hfuel _ hhigh hlow
    cases fuel with
    | zero => simp at hfuel
    | succ fuel =>
      have h0 : high ≠ 0 := by rintro rfl; simp at h192
      have h64 : ¬ high.toNat < 64 := by omega
      simp only [wireLabels_nil, length_nil, Nat.add_zero] at hhigh hlow
      simp [pointerFrom, hhigh, hlow, h0, h64, h192]
  | cons l ls ih =>
    intro fuel pos hok hfuel hst hhigh hlow
    cases fuel with
    | zero => simp at hfuel
    | succ fuel =>
      have hl := hok l mem_cons_self
      obtain ⟨h0, h64, hnat⟩ := lengthByte_spec hl
      obtain ⟨hbyte, -, hrest⟩ := stands_wireLabels_cons.mp hst
      have hidx : pos + (wireLabels (l :: ls)).length =
          pos + 1 + l.length + (wireLabels ls).length := by
        rw [length_wireLabels_cons]
        omega
      rw [hidx] at hhigh hlow
      rw [pointerFrom, hbyte]
      dsimp only
      rw [if_neg h0, if_pos h64, hnat]
      exact ih (fun m hm => hok m (mem_cons_of_mem _ hm)) (by simpa using hfuel) hrest hhigh hlow

theorem labelStarts_split : ∀ {ls : List Bytes} {fuel pos : ℕ},
    (∀ l ∈ ls, LabelOk l) → Stands message pos (wireLabels ls ++ [0]) →
    t ∈ labelStarts message fuel pos →
    ∃ first rest, ls = first ++ rest ∧ t = pos + (wireLabels first).length := by
  intro ls
  induction ls with
  | nil =>
    intro fuel pos _ hst ht
    have hzero := (stands_cons).mp hst
    cases fuel with
    | zero => simp [labelStarts] at ht
    | succ fuel =>
      simp only [labelStarts, hzero.1, true_or, if_true, mem_singleton] at ht
      exact ⟨[], [], rfl, by simpa using ht⟩
  | cons l ls ih =>
    intro fuel pos hok hst ht
    have hl := hok l mem_cons_self
    obtain ⟨h0, h64, hnat⟩ := lengthByte_spec hl
    obtain ⟨hbyte, -, hrest⟩ := stands_wireLabels_cons_append.mp hst
    cases fuel with
    | zero => simp [labelStarts] at ht
    | succ fuel =>
      have hno : ¬ (UInt8.ofNat l.length = 0 ∨ 64 ≤ (UInt8.ofNat l.length).toNat) := by
        rintro (h | h)
        · exact h0 h
        · omega
      rw [labelStarts, hbyte] at ht
      dsimp only at ht
      rw [if_neg hno, hnat, mem_cons] at ht
      rcases ht with rfl | ht
      · exact ⟨[], l :: ls, rfl, rfl⟩
      obtain ⟨first, rest, hsplit, ht⟩ := ih (fun m hm => hok m (mem_cons_of_mem _ hm)) hrest ht
      refine ⟨l :: first, rest, by rw [hsplit]; rfl, ?_⟩
      rw [length_wireLabels_cons]
      omega

/-! ### The same name in two messages -/

variable {consumed : Option ℕ}

theorem bytes_of_reads_wire : ∀ {ls : List Bytes} {name : Name} {pos : ℕ}, (∀ l ∈ ls, LabelOk l) →
      Stands message pos (wireLabels ls ++ [0]) → Reads message name pos consumed out stop →
      out.bytes = ls.foldl pushed name.bytes := by
  intro ls
  induction ls with
  | nil =>
    intro name pos _ hst h
    have hzero := ((stands_cons).mp hst).1
    cases h with
    | stop h => rfl
    | label h h0 =>
      rw [hzero] at h
      exact absurd (Option.some.inj h).symm h0
    | pointer h h192 =>
      rw [hzero] at h
      rw [← Option.some.inj h] at h192
      simp at h192
  | cons l ls ih =>
    intro name pos hok hst h
    have hl := hok l mem_cons_self
    obtain ⟨h0, h64, hnat⟩ := lengthByte_spec hl
    obtain ⟨hbyte, hlabel, hrest⟩ := stands_wireLabels_cons_append.mp hst
    cases h with
    | stop h =>
      rw [hbyte] at h
      exact absurd (Option.some.inj h) h0
    | pointer h h192 =>
      rw [hbyte] at h
      rw [← Option.some.inj h] at h192
      omega
    | @label _ _ _ _ _ length h _ _ hfits hdot hlen next =>
      have hlength : UInt8.ofNat l.length = length := by
        rw [hbyte] at h
        exact Option.some.inj h
      subst hlength
      have hslice : slice message (pos + 1) (UInt8.ofNat l.length).toNat = l := by
        rw [hnat]
        exact hlabel.slice_eq
      rw [ih (fun m hm => hok m (mem_cons_of_mem _ hm)) (by rwa [hnat]) next, foldl_cons]
      simp only [Name.push, hslice]

theorem foldl_pushed_congr : ∀ {ls ms : List Bytes} (bytes : Bytes),
    ls.map (map lower) = ms.map (map lower) → ls.foldl pushed bytes = ms.foldl pushed bytes
  | [], [], _, _ => rfl
  | [], _ :: _, _, h => by simp at h
  | _ :: _, [], _, h => by simp at h
  | l :: ls, m :: ms, bytes, h => by
    rw [map_cons, map_cons, cons.injEq] at h
    have hone : pushed bytes l = pushed bytes m := by unfold pushed; rw [h.1]
    rw [foldl_cons, foldl_cons, hone]
    exact foldl_pushed_congr _ h.2

theorem length_wireLabels_congr : ∀ {ls ms : List Bytes}, ls.map (map lower) = ms.map (map lower) →
    (wireLabels ls).length = (wireLabels ms).length
  | [], [], _ => rfl
  | [], _ :: _, h => by simp at h
  | _ :: _, [], h => by simp at h
  | l :: ls, m :: ms, h => by
    rw [map_cons, map_cons, cons.injEq] at h
    have hlen : l.length = m.length := by simpa using congrArg length h.1
    rw [length_wireLabels_cons, length_wireLabels_cons, hlen, length_wireLabels_congr h.2]

theorem reads_question (hlu : ∀ l ∈ lu, LabelOk l) (hlq : ∀ l ∈ lq, LabelOk l)
    (hu : Stands u headerBytes (wireLabels lu ++ [0])) (hw : Stands w headerBytes (wireLabels lq ++ [0]))
    (hsame : lu.map (map lower) = lq.map (map lower)) (hsplit : lu = first ++ rest)
    (h : Reads u mid (headerBytes + (wireLabels first).length) consumed name stop) (c : ℕ) :
    Reads w mid (headerBytes + (wireLabels first).length) (some c) name c := by
  have hsplit' : lq = lq.take first.length ++ lq.drop first.length := (take_append_drop _ _).symm
  have hfirst : first.map (map lower) = (lq.take first.length).map (map lower) := by
    rw [map_take, ← hsame, hsplit, ← map_take, take_left]
  have hrest : rest.map (map lower) = (lq.drop first.length).map (map lower) := by
    rw [map_drop, ← hsame, hsplit, ← map_drop, drop_left]
  have hu' : Stands u (headerBytes + (wireLabels first).length) (wireLabels rest ++ [0]) := by
    rw [hsplit, wireLabels_append, append_assoc, stands_append] at hu
    exact hu.2
  have hw' : Stands w (headerBytes + (wireLabels first).length) (wireLabels (lq.drop first.length) ++ [0]) := by
    rw [hsplit', wireLabels_append, append_assoc, stands_append, ← length_wireLabels_congr hfirst] at hw
    exact hw.2
  have hbytes := bytes_of_reads_wire (fun l hl => hlu l (by rw [hsplit]; exact mem_append_right _ hl)) hu' h
  rw [foldl_pushed_congr _ hrest] at hbytes
  exact reads_wire (some c) (fun l hl => hlq l (mem_of_mem_drop hl)) hw' hbytes

/-! ### Names that keep their meaning -/

/-- The setting of one answer: the same RDATA in the upstream message and, elsewhere, in the written one, which
begins with a question for the query's name. -/
structure Relaid (query upstream : Message) (w : Bytes) (at_ at' len : ℕ) : Prop where
  agree : ∀ j, j < len → w[at' + j]? = upstream.bytes[at_ + j]?
  question : ∃ lq : List Bytes, (∀ l ∈ lq, LabelOk l) ∧ query.question.name.labels = lq.map (map lower) ∧
    Stands w headerBytes (wireLabels lq ++ [0]) ∧ headerBytes + (wireLabels lq).length < at'

variable {query upstream : Message} {ubytes : Bytes}

variable {w : Bytes} {at_ at' len : ℕ}

/-- **An anchored name reads the same in the written message.** -/
theorem nameIn_relaid (hup : Parsed ubytes upstream) (hrel : Relaid query upstream w at_ at' len)
    (hanch : Anchored query upstream (at_ + d))
    (h : nameIn upstream.bytes (at_ + d) (at_ + len) = some (name, stop)) :
    ∃ e, d ≤ e ∧ stop = at_ + e ∧ nameIn w (at' + d) (at' + len) = some (name, at' + e) := by
  -- The name was read, inside the RDATA.
  obtain ⟨n, hread, hle, rfl⟩ : ∃ n, Name.read upstream.bytes (at_ + d) = .ok (name, n) ∧
      at_ + d + n ≤ at_ + len ∧ stop = at_ + d + n := by
    unfold nameIn at h
    rcases hr : Name.read upstream.bytes (at_ + d) with _ | p
    · rw [hr] at h; cases h
    rw [hr] at h
    dsimp only at h
    split_ifs at h with hle
    cases h
    exact ⟨p.2, rfl, hle, rfl⟩
  obtain ⟨s, hreads, hn⟩ := reads_of_read_eq hread
  obtain ⟨ls, mid, hok, hst, hmid, hends⟩ := hreads.inline
  have hshift : ∀ j, d + j < len → w[at' + d + j]? = upstream.bytes[at_ + d + j]? := by
    intro j hj
    rw [Nat.add_assoc, Nat.add_assoc]
    exact hrel.agree (d + j) hj
  -- It is enough to read the name in the written message up to the same end.
  suffices hw : Reads w Name.root (at' + d) none name (at' + d + n) by
    refine ⟨d + n, by omega, by omega, ?_⟩
    unfold nameIn
    rw [read_eq_of_reads hw]
    dsimp only
    rw [if_pos (by omega)]
    congr 2
    omega
  have hlab : ∀ k, d + (wireLabels ls).length + k ≤ len →
      Stands w (at' + d) (wireLabels ls) := by
    intro k hk
    exact hst.transfer (fun j hj => hshift j (by omega)) (le_refl _)
  rcases hends with ⟨hzero, rfl, hs⟩ | ⟨high, low, hhigh, h192, hlow, hback, hnext⟩
  · rw [getD_none] at hs
    have hend : n = (wireLabels ls).length + 1 := by omega
    have hzero' : w[at' + d + (wireLabels ls).length]? = some 0 := by
      rw [hshift _ (by omega)]
      exact hzero
    have hstop : Reads w name (at' + d + (wireLabels ls).length) none name
        ((none : Option ℕ).getD (at' + d + (wireLabels ls).length + 1)) := .stop hzero'
    rw [hend]
    exact reads_of_labels ls Name.root (at' + d) hok (hlab 1 (by omega)) hmid hstop
  · have hs := hnext.stop_eq _ rfl
    rw [getD_none] at hs
    have hhigh' : w[at' + d + (wireLabels ls).length]? = some high := by
      rw [hshift _ (by omega)]
      exact hhigh
    have hlow' : w[at' + d + (wireLabels ls).length + 1]? = some low := by
      rw [Nat.add_assoc, hshift _ (by omega)]
      exact hlow
    -- The pointer leads to the question, in both messages to the same labels.
    have hcount : ls.length ≤ (wireLabels ls).length := by
      clear * -
      induction ls with
      | nil => simp
      | cons l ls ih => rw [length_wireLabels_cons, length_cons]; omega
    have hbound := (List.getElem?_eq_some_iff.mp hlow).1
    obtain ⟨hname, htgt⟩ := hanch _ (pointerFrom_of_labels h192 hok (by omega) hst hhigh hlow)
    rw [hup.bytes_eq] at hnext htgt
    obtain ⟨lu, hlu, hlulabels, hustands, -⟩ := stands_of_read_wireLen hup.name
    obtain ⟨lq, hlq, hlqlabels, hwstands, hafter⟩ := hrel.question
    obtain ⟨first, rest, hsplit, ht⟩ := labelStarts_split hlu hustands htgt
    have hsame : lu.map (List.map lower) = lq.map (List.map lower) := by
      rw [← hlulabels, ← hlqlabels, hname]
    rw [ht] at hnext
    have hnext' := reads_question hlu hlq hustands hwstands hsame hsplit hnext (at' + d + n)
    rw [← ht] at hnext'
    have hfront : (wireLabels first).length ≤ (wireLabels lq).length := by
      rw [← length_wireLabels_congr hsame, hsplit, wireLabels_append, length_append]
      omega
    refine reads_of_labels ls Name.root (at' + d) hok (hlab 2 (by omega)) hmid ?_
    refine .pointer hhigh' h192 hlow' (by omega) ?_
    have hcons : (none : Option ℕ).getD (at' + d + (wireLabels ls).length + 2) = at' + d + n := by
      rw [getD_none]
      omega
    rw [hcons]
    exact hnext'

variable {ns : List Name}

theorem oneName_relaid (hup : Parsed ubytes upstream) (hrel : Relaid query upstream w at_ at' len)
    (hanch : Anchored query upstream (at_ + d))
    (h : [at_ + d].mapM (fun p => (nameIn upstream.bytes p (at_ + len)).map Prod.fst) = some ns) :
    [at' + d].mapM (fun p => (nameIn w p (at' + len)).map Prod.fst) = some ns := by
  rcases hname : nameIn upstream.bytes (at_ + d) (at_ + len) with _ | p
  · simp [hname] at h
  obtain ⟨e, -, -, hw⟩ := nameIn_relaid hup hrel hanch hname
  simp only [mapM_cons, mapM_nil, hname, hw, map_some] at h ⊢
  exact h

theorem twoNames_relaid (hup : Parsed ubytes upstream) (hrel : Relaid query upstream w at_ at' len)
    (hfirst : nameIn upstream.bytes at_ (at_ + len) = some (first, at_ + e))
    (hfirst' : nameIn w at' (at' + len) = some (first, at' + e)) (hanch : Anchored query upstream (at_ + e))
    (h : [at_, at_ + e].mapM (fun p => (nameIn upstream.bytes p (at_ + len)).map Prod.fst) = some ns) :
    [at', at' + e].mapM (fun p => (nameIn w p (at' + len)).map Prod.fst) = some ns := by
  rcases hname : nameIn upstream.bytes (at_ + e) (at_ + len) with _ | p
  · simp [hfirst, hname] at h
  obtain ⟨_, -, -, hw⟩ := nameIn_relaid hup hrel hanch hname
  simp only [mapM_cons, mapM_nil, hfirst, hfirst', hname, hw, map_some] at h ⊢
  exact h

variable {rtype : RecordType}

/-- **Anchored RDATA carries the same names in the written message.** -/
theorem rdataNames_relaid (hup : Parsed ubytes upstream) (hrel : Relaid query upstream w at_ at' len)
    (hanch : ∀ p ∈ namePlaces upstream.bytes rtype at_ len, Anchored query upstream p)
    (h : rdataNames upstream.bytes rtype at_ len = some ns) : rdataNames w rtype at' len = some ns := by
  unfold rdataNames at h ⊢
  unfold namePlaces at h hanch ⊢
  by_cases hone : rtype.toWire = 2 ∨ rtype.toWire = 5 ∨ rtype.toWire = 12
  · simp only [hone, if_true] at h hanch ⊢
    exact oneName_relaid (d := 0) hup hrel (hanch at_ mem_cons_self) h
  simp only [hone, if_false] at h hanch ⊢
  by_cases hmx : rtype.toWire = 15
  · simp only [hmx, if_true] at h hanch ⊢
    exact oneName_relaid hup hrel (hanch (at_ + 2) mem_cons_self) h
  simp only [hmx, if_false] at h hanch ⊢
  by_cases hsoa : rtype.toWire = 6
  · simp only [hsoa, if_true] at h hanch ⊢
    rcases hname : nameIn upstream.bytes at_ (at_ + len) with _ | p
    · simp [hname] at h
    simp only [hname] at h hanch
    obtain ⟨e, -, hsec, hw⟩ := nameIn_relaid (d := 0) hup hrel (hanch at_ mem_cons_self) hname
    rw [hsec] at h hanch
    rw [Nat.add_zero] at hw
    simp only [hw]
    have hname' : nameIn upstream.bytes at_ (at_ + len) = some (p.1, at_ + e) := by rw [hname, ← hsec]
    exact twoNames_relaid hup hrel hname' hw (hanch (at_ + e) (by simp)) h
  · simp only [hsoa, if_false] at h
    cases h

/-! ### The whole response -/

theorem carriesSvcParams_of_names
    (h : rdataNames message rtype at_ len = some ns) : rtype.carriesSvcParams = false := by
  cases rtype <;> first | rfl | simp [rdataNames, namePlaces, RecordType.toWire] at h

variable {policy : AnswerPolicy}

theorem carriedNames_laid (hup : Parsed ubytes upstream)
    (hlq : ∀ l ∈ lq, LabelOk l) (hlab : query.question.name.labels = lq.map (map lower))
    (hques : Stands w headerBytes (wireLabels lq ++ [0]))
    (hall : Forall₂ (fun old new => Rewrites policy age old.1 new) olds news) :
    ∀ {pos : ℕ}, (∀ old ∈ olds, RecordOk old.1 ∧ Stands upstream.bytes old.2 old.1.rdata) →
      (∀ old ∈ olds, (rdataNames upstream.bytes old.1.rtype old.2 old.1.rdata.length).isSome →
        ∀ p ∈ namePlaces upstream.bytes old.1.rtype old.2 old.1.rdata.length, Anchored query upstream p) →
      headerBytes + (wireLabels lq).length < pos → Stands w pos (news.flatMap recordBytes) →
      Forall₂ (fun names names' => ∀ ns, names = some ns → names' = some ns)
        (carriedNames upstream.bytes olds) (carriedNames w (laidAt pos news)) := by
  induction hall with
  | nil =>
    intro pos _ _ _ _
    exact .nil
  | @cons old new olds news hone _ ih =>
    intro pos hspec hanch hcur hst
    rw [flatMap_cons, stands_append] at hst
    obtain ⟨hok, hrdata⟩ := hspec old mem_cons_self
    obtain ⟨-, hnew⟩ := readRecord_laid (hone.recordOk hok) hst.1
    refine .cons (fun ns h => ?_) (ih (fun o ho => hspec o (mem_cons_of_mem _ ho))
      (fun o ho => hanch o (mem_cons_of_mem _ ho)) (by omega) hst.2)
    have hsame := hone.rdata_eq (carriesSvcParams_of_names h)
    have hrel : Relaid query upstream w old.2 (pos + new.name.wire.length + 10) old.1.rdata.length := by
      refine ⟨fun j hj => ?_, lq, hlq, hlab, hques, by omega⟩
      rw [hrdata j hj, hnew j (by rw [hsame]; exact hj), hsame]
    dsimp only
    rw [hone.rtype, hsame]
    exact rdataNames_relaid hup hrel (hanch old mem_cons_self (isSome_of_eq_some h)) h

/-- **Names keep their meaning when every pointer leads to the question.** For every query, every upstream message
and every successful rewrite of its answers, if the names that can be read in the answers' RDATA are uncompressed or
point at labels of the question name, then the written message carries the upstream names. -/
theorem keepsNames_of_anchored {qbytes ubytes out out' : Bytes} {query upstream : Message} {policy : AnswerPolicy}
    {age : ℕ} {r : Rewritten} (hquery : parse qbytes = .ok query) (hupstream : parse ubytes = .ok upstream)
    (hwrite : writeResponseAged out query upstream policy age = .ok (out', r))
    (hanch : NamesAnchored query upstream) : KeepsNames upstream (out'.take r.len) := by
  have hq := parsed_of_parse hquery
  have hu := parsed_of_parse hupstream
  obtain ⟨olds, news, w, holds, hall, hout, hparse, hans, -⟩ := answers_written hquery hupstream hwrite
  rw [hout] at hparse ⊢
  obtain ⟨-, -, -, -, -, -, hques, hrecs⟩ :=
    stands_written query.id (responseFlags query upstream).toNat query.questionBytes news
  refine ⟨olds, w, laidAt (headerBytes + query.questionBytes.length) news, holds, hparse, hans, ?_⟩
  -- The question name stands in the written message as in the query.
  obtain ⟨lq, hlq, hlqlabels, hqstands, hqlen⟩ := stands_of_read_wireLen hq.name
  have hslice : query.questionBytes.length = query.question.name.wireLen + 4 := by
    rw [hq.questionBytes]
    exact length_slice hq.question_le
  have hwquestion : Stands (written query.id (responseFlags query upstream).toNat query.questionBytes news)
      headerBytes (wireLabels lq ++ [0]) := by
    refine hqstands.transfer (n := query.question.name.wireLen + 4) (fun j hj => ?_) ?_
    · rw [hques j (by omega), hq.questionBytes, getElem?_slice, if_pos hj]
    · rw [length_append, length_singleton]
      omega
  exact carriedNames_laid hu hlq hlqlabels hwquestion hall (walk_spec holds) (hanch olds holds) (by omega) hrecs

def anchoredQuery : Bytes :=
  [0, 7, 1, 0, 0, 1, 0, 0, 0, 0, 0, 0, 1, 113, 1, 101, 0, 0, 5, 0, 1]

def anchoredReply : Bytes :=
  [0, 7, 129, 128, 0, 1, 0, 1, 0, 0, 0, 0, 1, 113, 1, 101, 0, 0, 5, 0, 1] ++
  [192, 12, 0, 5, 0, 1, 0, 0, 0, 60, 0, 4, 1, 99, 192, 14]

def respond (qbytes ubytes out : Bytes) (policy : AnswerPolicy) (age : ℕ) :
    Except DnsError ((Message × Message) × Bytes × Rewritten) := do
  let query ← parse qbytes
  let upstream ← parse ubytes
  let written ← writeResponseAged out query upstream policy age
  return ((query, upstream), written)

theorem respond_eq_ok (h : respond qbytes ubytes out policy age = .ok x) :
    parse qbytes = .ok x.1.1 ∧ parse ubytes = .ok x.1.2 ∧ writeResponseAged out x.1.1 x.1.2 policy age = .ok x.2 := by
  unfold respond at h
  simp only [bind_eq_ok] at h
  obtain ⟨query, hq, upstream, hu, written, hw, h⟩ := h
  cases h
  exact ⟨hq, hu, hw⟩

theorem keepsNames_anchoredReply : ∃ query upstream out' r, parse anchoredQuery = .ok query ∧
    parse anchoredReply = .ok upstream ∧
    writeResponseAged (replicate 64 0) query upstream ⟨.preserve, .preserve⟩ 0 = .ok (out', r) ∧
    NamesAnchored query upstream ∧ KeepsNames upstream (out'.take r.len) := by
  obtain ⟨x, hx, hanch⟩ : ∃ x, respond anchoredQuery anchoredReply (replicate 64 0) ⟨.preserve, .preserve⟩ 0 = .ok x ∧
      NamesAnchored x.1.1 x.1.2 := holds_of_ok (by decide +kernel)
  obtain ⟨hq, hu, hw⟩ := respond_eq_ok hx
  exact ⟨x.1.1, x.1.2, x.2.1, x.2.2, hq, hu, hw, hanch, keepsNames_of_anchored hq hu hw hanch⟩

def chainQuery : Bytes :=
  [0, 7, 1, 0, 0, 1, 0, 0, 0, 0, 0, 0, 1, 113, 0, 0, 5, 0, 1]

/-- A chain of two: `q` is `b`, and `b` is `c.b`, whose `b` is a pointer to the first answer's RDATA at 31. -/
def chainReply : Bytes :=
  [0, 7, 129, 128, 0, 1, 0, 2, 0, 0, 0, 0, 1, 113, 0, 0, 5, 0, 1] ++
  [192, 12, 0, 5, 0, 1, 0, 0, 0, 60, 0, 3, 1, 98, 0] ++
  [192, 31, 0, 5, 0, 1, 0, 0, 0, 60, 0, 4, 1, 99, 192, 31]

/-- **A pointer to an earlier record changes its meaning.** The first answer's owner is written uncompressed, one
byte longer, so that the pointer leads into the record before: the written answer is no longer `c.b`. -/
theorem not_keepsNames_pointer_to_record : ∃ query upstream out' r, parse chainQuery = .ok query ∧
    parse chainReply = .ok upstream ∧
    writeResponseAged (replicate 64 0) query upstream ⟨.preserve, .preserve⟩ 0 = .ok (out', r) ∧
    ¬ KeepsNames upstream (out'.take r.len) := by
  obtain ⟨x, hx, hnot⟩ : ∃ x, respond chainQuery chainReply (replicate 64 0) ⟨.preserve, .preserve⟩ 0 = .ok x ∧
      ¬ KeepsNames x.1.2 (x.2.1.take x.2.2.len) := holds_of_ok (by decide +kernel)
  obtain ⟨hq, hu, hw⟩ := respond_eq_ok hx
  exact ⟨x.1.1, x.1.2, x.2.1, x.2.2, hq, hu, hw, hnot⟩

end Boreas.Dns
