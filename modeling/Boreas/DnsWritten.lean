import Boreas.Dns

/-! # The message that `writeResponseAged` writes

`Writes` says that a write appended bytes to a buffer; the chain of writes of a response appends the header, the
question and the records (`writeResponseAged_spec`).  The written message parses, with the client's question, and
the walk over its answers finds the written records (`parse_written`, `walk_laid`). -/

namespace Boreas.Dns

open List hiding all cons length nil
open Slices
open Message (parse)

/-! ### Appending to the buffer -/

/-- From `at_` in `out`, the bytes `ys` were appended, which gives `out'` and the position `stop`. -/
structure Writes (out : Bytes) (at_ : ℕ) (ys out' : Bytes) (stop : ℕ) : Prop where
  length : out'.length = out.length
  stop_eq : stop = at_ + ys.length
  stop_le : stop ≤ out.length
  take_eq : out'.take stop = out.take at_ ++ ys

theorem Writes.trans (h₁ : Writes out a xs out' b)
    (h₂ : Writes out' b ys out'' c) : Writes out a (xs ++ ys) out'' c := by
  have h1 := h₁.stop_eq
  have h2 := h₂.stop_eq
  have h3 := h₂.stop_le
  refine ⟨h₂.length.trans h₁.length, ?_, ?_, ?_⟩
  · rw [length_append]
    omega
  · rw [← h₁.length]
    exact h3
  · rw [h₂.take_eq, h₁.take_eq, append_assoc]

variable {out out' : Bytes} {at_ stop : ℕ}

variable {write : Bounded → Bounded} (values : List Bytes)

theorem writeAt_overwrite (hwrite : ∀ b, write b = b.writeAll values) (h : writeAt out at_ write = .ok (out', stop)) :
    out' = overwrite out at_ values.flatten ∧ stop = at_ + values.flatten.length ∧ stop ≤ out.length := by
  unfold writeAt at h
  rw [bind_eq_ok] at h
  obtain ⟨b, hb, h⟩ := h
  rw [okOr_eq_ok] at hb h
  unfold Bounded.start at hb
  split_ifs at hb with hle
  cases hb
  rw [hwrite] at h
  exact Bounded.writeAll_finish hle h

theorem writeAt_writes (hwrite : ∀ b, write b = b.writeAll values) (h : writeAt out at_ write = .ok (out', stop)) :
    Writes out at_ values.flatten out' stop := by
  obtain ⟨h1, h2, h3⟩ := writeAt_overwrite values hwrite h
  have hfit : at_ + values.flatten.length ≤ out.length := by omega
  refine ⟨?_, h2, h3, ?_⟩
  · rw [h1, length_overwrite hfit]
  · rw [h1, h2, take_overwrite_stop hfit]

/-! ### Records -/

def recordBytes (r : ResourceRecord) : Bytes :=
  r.name.wire ++ (toBeBytes r.rtype.toWire ++ (toBeBytes r.class_ ++ (toBeBytes32 r.ttl ++
    (toBeBytes r.rdata.length ++ r.rdata))))

theorem length_recordBytes : (recordBytes r).length = r.name.wire.length + 10 + r.rdata.length := by
  simp only [recordBytes, length_append, length_toBeBytes, length_toBeBytes32]
  omega

theorem Name.write_values (name : Name) : ∃ values : List Bytes, values.flatten = name.wire ∧
    ∀ b : Bounded, (name.labels.foldl Bounded.vectorU8 b).u8 0 = b.writeAll values := by
  have hfold : ∀ (labels : List Bytes) (b : Bounded), labels.foldl Bounded.vectorU8 b =
      b.writeAll (labels.flatMap (fun l => [[UInt8.ofNat l.length], l])) := by
    intro labels
    induction labels with
    | nil => intro b; rfl
    | cons l labels ih => intro b; rw [foldl_cons, ih]; rfl
  have hflat : ∀ labels : List Bytes, (labels.flatMap (fun l => [[UInt8.ofNat l.length], l])).flatten =
      wireLabels labels := by
    intro labels
    induction labels with
    | nil => rfl
    | cons l labels ih => simp [wireLabels_cons, ih]
  refine ⟨name.labels.flatMap (fun l => [[UInt8.ofNat l.length], l]) ++ [[0]], ?_, fun b => ?_⟩
  · rw [flatten_append, hflat]
    rfl
  · rw [hfold, Bounded.writeAll, Bounded.writeAll, foldl_append]
    rfl

theorem Name.write_writes {name : Name}
    (h : name.write out at_ = .ok (out', stop)) : Writes out at_ name.wire out' stop := by
  obtain ⟨values, hflat, hwrite⟩ := name.write_values
  rw [← hflat]
  exact writeAt_writes values hwrite h

theorem writeRecord_writes (h : writeRecord out at_ record rdata = .ok (out', stop)) :
    rdata.bytes.length < 65536 ∧ Writes out at_ (recordBytes { record with rdata := rdata.bytes }) out' stop := by
  unfold writeRecord at h
  rw [bind_eq_ok] at h
  obtain ⟨u, hlen, h⟩ := h
  rw [ensure_eq_ok] at hlen
  rw [bind_eq_ok] at h
  obtain ⟨⟨out₁, at₁⟩, hname, h⟩ := h
  have hrest := writeAt_writes ([toBeBytes record.rtype.toWire, toBeBytes record.class_,
      toBeBytes32 record.ttl, toBeBytes rdata.bytes.length] ++ rdata.parts)
    (fun b => by rw [Bounded.writeAll, foldl_append]; rfl) h
  refine ⟨hlen, ?_⟩
  have hall := (Name.write_writes hname).trans hrest
  simpa [recordBytes, Rdata.bytes] using hall

structure RecordOk (r : ResourceRecord) : Prop where
  rtype : r.rtype = RecordType.fromWire r.rtype.toWire ∧ r.rtype.toWire < 65536
  class_ : r.class_ < 65536
  ttl : r.ttl < 4294967296
  rdata : r.rdata.length < 65536

variable {bytes : Bytes}

theorem u16At_lt (h : u16At bytes at_ = some n) : n < 65536 := by
  simp only [u16At, Option.pure_def, Option.bind_eq_bind, Option.bind_eq_some_iff, Option.some.injEq] at h
  obtain ⟨high, -, low, -, rfl⟩ := h
  have h1 := high.toNat_lt
  have h2 := low.toNat_lt
  unfold fromBeBytes
  omega

theorem stands_of_u16At (h : u16At bytes at_ = some n) : Stands bytes at_ (toBeBytes n) := by
  simp only [u16At, Option.pure_def, Option.bind_eq_bind, Option.bind_eq_some_iff, Option.some.injEq] at h
  obtain ⟨high, hhigh, low, hlow, rfl⟩ := h
  rw [toBeBytes_fromBeBytes, stands_cons, stands_cons]
  exact ⟨hhigh, hlow, stands_nil⟩

theorem u32At_lt (h : u32At bytes at_ = some n) : n < 4294967296 := by
  simp only [u32At, Option.pure_def, Option.bind_eq_bind, Option.bind_eq_some_iff, Option.some.injEq] at h
  obtain ⟨high, hhigh, low, hlow, rfl⟩ := h
  have h1 := u16At_lt hhigh
  have h2 := u16At_lt hlow
  omega

variable {message : Bytes}

variable {r : ResourceRecord}

theorem readRecord_spec (h : readRecord message cursor = .ok (r, at_)) :
    RecordOk r ∧ Stands message at_ r.rdata ∧ at_ + r.rdata.length ≤ message.length := by
  unfold readRecord at h
  rw [bind_eq_ok] at h
  obtain ⟨⟨name, nameLen⟩, -, h⟩ := h
  simp only [bind_eq_ok, okOr_eq_ok] at h
  obtain ⟨rtype, hrtype, class_, hclass, ttl, httl, length, hlength, rdata, hrdata, h⟩ := h
  cases h
  unfold takeAt at hrdata
  split_ifs at hrdata with hle
  cases hrdata
  have hlen := length_slice hle
  refine ⟨⟨?_, u16At_lt hclass, u32At_lt httl, ?_⟩, stands_slice hle, ?_⟩
  · rw [RecordType.toWire_fromWire]
    exact ⟨rfl, u16At_lt hrtype⟩
  · rw [hlen]
    exact u16At_lt hlength
  · rw [hlen]
    exact hle

/-! ### The loop over the answers -/

/-- What becomes of one answer: only the TTL and, for records with service parameters, the RDATA change. -/
structure Rewrites (policy : AnswerPolicy) (age : ℕ) (old new : ResourceRecord) : Prop where
  name : new.name = old.name
  rtype : new.rtype = old.rtype
  class_ : new.class_ = old.class_
  ttl : new.ttl = old.ttl - age
  rdata : ∃ params rdata, answerParams old = .ok params ∧ answerRdata policy old params = some rdata ∧
    new.rdata = rdata.bytes
  short : new.rdata.length < 65536

variable {policy : AnswerPolicy} {age : ℕ}

variable {old new : ResourceRecord}

theorem Rewrites.rdata_eq
    (h : Rewrites policy age old new) (hplain : old.rtype.carriesSvcParams = false) : new.rdata = old.rdata := by
  obtain ⟨params, rdata, hpars, hrdata, hnew⟩ := h.rdata
  unfold answerParams at hpars
  rw [if_neg (by simp [hplain])] at hpars
  cases hpars
  cases hrdata
  simp [hnew, Rdata.bytes, Rdata.verbatim]

theorem Rewrites.recordOk (h : Rewrites policy age old new) (hold : RecordOk old) : RecordOk new := by
  refine ⟨?_, ?_, ?_, h.short⟩
  · rw [h.rtype]; exact hold.rtype
  · rw [h.class_]; exact hold.class_
  · have := hold.ttl
    rw [h.ttl]
    omega

theorem writeAnswer_spec (h : writeAnswer policy age answer p = .ok p') :
    ∃ new, Rewrites policy age answer new ∧ Writes p.out p.cursor (recordBytes new) p'.out p'.cursor ∧
      p'.answers = p.answers + 1 := by
  unfold writeAnswer at h
  rw [bind_eq_ok] at h
  obtain ⟨params, hpars, h⟩ := h
  rw [bind_eq_ok] at h
  obtain ⟨rdata, hrdata, h⟩ := h
  rw [okOr_eq_ok] at hrdata
  rw [bind_eq_ok] at h
  obtain ⟨⟨out, cursor⟩, hwrite, h⟩ := h
  cases h
  obtain ⟨hshort, hw⟩ := writeRecord_writes hwrite
  exact ⟨⟨answer.name, answer.rtype, answer.class_, answer.ttl - age, rdata.bytes⟩,
    ⟨rfl, rfl, rfl, rfl, ⟨params, rdata, hpars, hrdata, rfl⟩, hshort⟩, hw, rfl⟩

theorem writeAnswers_spec : ∀ {remaining pos : ℕ} {p p' : Progress}, p.cursor ≤ p.out.length →
      writeAnswers policy age message remaining pos p = .ok p' →
      ∃ (olds : List (ResourceRecord × ℕ)) (news : List ResourceRecord), walk message remaining pos = .ok olds ∧
        Forall₂ (fun old new => Rewrites policy age old.1 new) olds news ∧
        Writes p.out p.cursor (news.flatMap recordBytes) p'.out p'.cursor ∧
        p'.answers = p.answers + remaining ∧ olds.length = remaining := by
  intro remaining
  induction remaining with
  | zero =>
    intro pos p p' hp h
    cases h
    exact ⟨[], [], rfl, .nil, ⟨rfl, rfl, hp, by simp⟩, rfl, rfl⟩
  | succ remaining ih =>
    intro pos p p' hp h
    rw [writeAnswers, bind_eq_ok] at h
    obtain ⟨⟨answer, at_⟩, hread, h⟩ := h
    rw [bind_eq_ok] at h
    obtain ⟨p₁, hone, h⟩ := h
    obtain ⟨new, hnew, hw, hcount⟩ := writeAnswer_spec hone
    have hp₁ : p₁.cursor ≤ p₁.out.length := by
      rw [hw.length]
      exact hw.stop_le
    obtain ⟨olds, news, hwalk, hall, hws, hcnt, hlen⟩ := ih hp₁ h
    refine ⟨(answer, at_) :: olds, new :: news, ?_, .cons hnew hall, hw.trans hws, by omega, by simp [hlen]⟩
    rw [walk, hread]
    simp only [bind, Except.bind]
    rw [hwalk]
    rfl

/-! ### The whole message -/

def header (id flags answers : ℕ) : Bytes :=
  toBeBytes id ++ (toBeBytes flags ++ (toBeBytes 1 ++ (toBeBytes answers ++ List.replicate 4 0)))

def written (id flags : ℕ) (question : Bytes) (records : List ResourceRecord) : Bytes :=
  header id flags records.length ++ question ++ records.flatMap recordBytes

/-- **What `writeResponseAged` writes**, and how it comes from the upstream answers. -/
theorem writeResponseAged_spec {r : Rewritten} (h : writeResponseAged out query upstream policy age = .ok (out', r)) :
    ∃ (olds : List (ResourceRecord × ℕ)) (news : List ResourceRecord), upstream.answers = .ok olds ∧
      Forall₂ (fun old new => Rewrites policy age old.1 new) olds news ∧ olds.length = upstream.answerCount ∧
      out'.take r.len = written query.id (responseFlags query upstream).toNat query.questionBytes news ∧
      r.len ≤ out.length ∧ out'.length = out.length := by
  unfold writeResponseAged at h
  rw [bind_eq_ok] at h
  obtain ⟨⟨out₁, cursor₁⟩, hhead, h⟩ := h
  rw [bind_eq_ok] at h
  obtain ⟨p, hloop, h⟩ := h
  rw [bind_eq_ok] at h
  obtain ⟨⟨out₂, at₂⟩, hpatch, h⟩ := h
  cases h
  have hw := writeAt_writes [toBeBytes query.id, toBeBytes (responseFlags query upstream).toNat, toBeBytes 1,
    List.replicate 6 0, query.questionBytes] (fun b => rfl) hhead
  obtain ⟨olds, news, hwalk, hall, hws, hcount, hlen⟩ := writeAnswers_spec (by
    rw [hw.length]
    exact hw.stop_le) hloop
  obtain ⟨hout₂, -, hfit⟩ := writeAt_overwrite [toBeBytes p.answers] (fun b => rfl) hpatch
  -- The answer count is written over the header, which the records follow.
  have hbody := hw.trans hws
  have hcur : ancountAt + (toBeBytes p.answers).length ≤ p.cursor := by
    have := hbody.stop_eq
    simp only [flatten_cons, length_append, length_toBeBytes, length_replicate] at this
    unfold ancountAt
    rw [length_toBeBytes]
    omega
  have hle : p.cursor ≤ p.out.length := by
    rw [hbody.length]
    exact hbody.stop_le
  have hnews : p.answers = news.length := by
    rw [hcount, ← hlen, hall.length_eq]
    simp
  have htake : p.out.take p.cursor = header query.id (responseFlags query upstream).toNat 0 ++
      (query.questionBytes ++ news.flatMap recordBytes) := by
    rw [hbody.take_eq]
    simp [header, toBeBytes]
  have hlength : out'.length = p.out.length := by
    rw [hout₂]
    exact length_overwrite (by simpa using hcur.trans hle)
  refine ⟨olds, news, hwalk, hall, hlen, ?_, hbody.stop_le, hlength.trans hbody.length⟩
  rw [hout₂, flatten_singleton, take_overwrite hcur hle, htake, written, ← hnews]
  rfl

/-! ### Reading the written message back -/

structure Parsed (bytes : Bytes) (m : Message) : Prop where
  bytes_eq : m.bytes = bytes
  id : u16At bytes 0 = some m.id
  answerCount : m.answerCount < 65536
  name : Name.read bytes headerBytes = .ok (m.question.name, m.question.name.wireLen)
  qtype : ∃ v, u16At bytes (headerBytes + m.question.name.wireLen) = some v ∧ m.question.qtype = RecordType.fromWire v
  qclass : u16At bytes (headerBytes + m.question.name.wireLen + 2) = some m.question.qclass
  questionBytes : m.questionBytes = slice bytes headerBytes (m.question.name.wireLen + 4)
  answersAt : m.answersAt = headerBytes + m.question.name.wireLen + 4

theorem parsed_of_parse (h : parse bytes = .ok m) : Parsed bytes m := by
  unfold parse at h
  simp only [bind_eq_ok, okOr_eq_ok, ensure_eq_ok] at h
  obtain ⟨id, hid, flags, -, qd, -, an, han, ns, -, ar, -, u₁, -, u₂, -, u₃, -, ⟨name, nameLen⟩, hname, u₄, hlen,
    qtype, hqtype, qclass, hqclass, h⟩ := h
  dsimp only at hlen hqtype hqclass h
  subst hlen
  cases h
  exact ⟨rfl, hid, u16At_lt han, hname, ⟨qtype, hqtype, rfl⟩, hqclass, rfl, rfl⟩

theorem Parsed.question_le (h : Parsed bytes m) : headerBytes + (m.question.name.wireLen + 4) ≤ bytes.length := by
  have hq := h.qclass
  simp only [u16At, Option.bind_eq_bind, Option.bind_eq_some_iff] at hq
  obtain ⟨high, -, low, hlow, -⟩ := hq
  have := (List.getElem?_eq_some_iff.mp hlow).1
  omega

theorem u16At_congr (h0 : xs[i]? = ys[j]?) (h1 : xs[i + 1]? = ys[j + 1]?) : u16At xs i = u16At ys j := by
  unfold u16At
  rw [h0, h1]

theorem stands_written (id flags : ℕ) (q : Bytes) (records : List ResourceRecord) :
    Stands (written id flags q records) 0 (toBeBytes id) ∧
      Stands (written id flags q records) 2 (toBeBytes flags) ∧
      Stands (written id flags q records) 4 (toBeBytes 1) ∧
      Stands (written id flags q records) 6 (toBeBytes records.length) ∧
      Stands (written id flags q records) 8 (toBeBytes 0) ∧
      Stands (written id flags q records) 10 (toBeBytes 0) ∧
      Stands (written id flags q records) headerBytes q ∧
      Stands (written id flags q records) (headerBytes + q.length) (records.flatMap recordBytes) := by
  have h := stands_self (written id flags q records)
  have hzeros : List.replicate 4 (0 : UInt8) = toBeBytes 0 ++ toBeBytes 0 := rfl
  nth_rewrite 2 [written] at h
  rw [header, hzeros] at h
  simp only [stands_append, length_append] at h
  obtain ⟨⟨⟨h0, h2, h4, h6, h8, h10⟩, hq⟩, hr⟩ := h
  exact ⟨h0, h2, h4, h6, h8, h10, hq, by simpa [headerBytes] using hr⟩

variable {query : Message}

/-- **The written message parses**, with the client's question. -/
theorem parse_written (hq : Parsed qbytes query)
    (hflags : BitVec.ofNat 16 flags &&& opcodeMask = 0) (hflags' : flags < 65536) (hn : records.length < 65536) :
    ∃ w, parse (written query.id flags query.questionBytes records) = .ok w ∧
      w.bytes = written query.id flags query.questionBytes records ∧ w.answerCount = records.length ∧
      w.answersAt = headerBytes + query.questionBytes.length ∧ w.question = query.question ∧ w.id = query.id ∧
      w.flags = BitVec.ofNat 16 flags := by
  obtain ⟨h0, h2, h4, h6, h8, h10, hques, -⟩ := stands_written query.id flags query.questionBytes records
  generalize written query.id flags query.questionBytes records = bytes at *
  have hqlen : query.questionBytes.length = query.question.name.wireLen + 4 := by
    rw [hq.questionBytes]
    exact length_slice hq.question_le
  have hagree : ∀ j, j < query.question.name.wireLen + 4 → bytes[headerBytes + j]? = qbytes[headerBytes + j]? := by
    intro j hj
    rw [hques j (by omega), hq.questionBytes, getElem?_slice, if_pos hj]
  -- The name stands in the written message as in the query.
  obtain ⟨ls, hok, hlab, hst, hlen⟩ := stands_of_read_wireLen hq.name
  have hname : Name.read bytes headerBytes = .ok (query.question.name, query.question.name.wireLen) := by
    have hst' : Stands bytes headerBytes (wireLabels ls ++ [0]) :=
      hst.transfer hagree (by rw [length_append, length_singleton]; omega)
    have hbytes : query.question.name.bytes = ls.foldl pushed Name.root.bytes := by
      rw [query.question.name.foldl_labels, hlab]
      exact foldl_pushed_lower ls hok
    have hreads := reads_wire none hok hst' hbytes
    rw [read_eq_of_reads hreads, Option.getD_none]
    congr 2
    omega
  obtain ⟨v, hv, hqtype⟩ := hq.qtype
  have hqtype' : u16At bytes (headerBytes + query.question.name.wireLen) = some v := by
    rw [← hv]
    exact u16At_congr (hagree _ (by omega)) (hagree (query.question.name.wireLen + 1) (by omega))
  have hqclass' : u16At bytes (headerBytes + query.question.name.wireLen + 2) = some query.question.qclass := by
    rw [← hq.qclass]
    exact u16At_congr (hagree (query.question.name.wireLen + 2) (by omega))
      (hagree (query.question.name.wireLen + 3) (by omega))
  refine ⟨⟨bytes, query.id, BitVec.ofNat 16 flags, records.length, 0, 0, query.question,
    slice bytes headerBytes (query.question.name.wireLen + 4), headerBytes + query.question.name.wireLen + 4⟩,
    ?_, rfl, rfl, by rw [hqlen]; rfl, rfl, rfl, rfl⟩
  simp only [parse, u16At_of_stands h0 (u16At_lt hq.id), u16At_of_stands h2 hflags', u16At_of_stands h4 (by decide),
    u16At_of_stands h6 hn, u16At_of_stands h8 (by decide), u16At_of_stands h10 (by decide), hname, hqtype', hqclass',
    okOr, ensure, hflags, bind, Except.bind, pure, Except.pure, if_true, ne_eq, one_ne_zero, not_false_eq_true]
  rw [← hqtype]

/-! ### The written records -/

def laidAt : ℕ → List ResourceRecord → List (ResourceRecord × ℕ)
  | _, [] => []
  | cursor, r :: rs => (r, cursor + r.name.wire.length + 10) :: laidAt (cursor + (recordBytes r).length) rs

theorem readRecord_laid (hr : RecordOk r) (h : Stands message cursor (recordBytes r)) :
    readRecord message cursor = .ok (r, cursor + r.name.wire.length + 10) ∧
      Stands message (cursor + r.name.wire.length + 10) r.rdata := by
  have hle := h.le_length (by
    intro hnil
    have := congrArg List.length hnil
    rw [length_recordBytes] at this
    simp at this)
  rw [length_recordBytes] at hle
  simp only [recordBytes, stands_append, length_toBeBytes, length_toBeBytes32] at h
  obtain ⟨hname, hrtype, hclass, httl, hlen, hrdata⟩ := h
  have hrdata' : Stands message (cursor + r.name.wire.length + 10) r.rdata := hrdata
  refine ⟨?_, hrdata'⟩
  simp only [readRecord, read_wire hname, u16At_of_stands hrtype hr.rtype.2, u16At_of_stands hclass hr.class_,
    u32At_of_stands httl hr.ttl, u16At_of_stands hlen hr.rdata, takeAt_of_stands hrdata' (by omega), okOr, bind,
    Except.bind, pure, Except.pure, ← hr.rtype.1]

/-- **The walk over the written answers** finds the written records. -/
theorem walk_laid : ∀ {rs : List ResourceRecord} {pos : ℕ}, (∀ r ∈ rs, RecordOk r) →
    Stands message pos (rs.flatMap recordBytes) → walk message rs.length pos = .ok (laidAt pos rs)
  | [], _, _, _ => rfl
  | r :: rs, pos, hok, h => by
    rw [flatMap_cons, stands_append] at h
    obtain ⟨hread, -⟩ := readRecord_laid (hok r mem_cons_self) h.1
    have ih := walk_laid (fun x hx => hok x (mem_cons_of_mem _ hx)) h.2
    have hnext : pos + r.name.wire.length + 10 + r.rdata.length = pos + (recordBytes r).length := by
      rw [length_recordBytes]
      omega
    simp only [walk, length_cons, hread, bind, Except.bind, hnext, ih]
    rfl

/-! ### The whole response, read back -/

theorem or_and_eq_zero {m : BitVec 16} (ha : a &&& m = 0) (hb : b &&& m = 0) : (a ||| b) &&& m = 0 := by
  rw [BitVec.and_or_distrib_right, ha, hb]
  rfl

theorem responseFlags_opcode (query up : Message) : responseFlags query up &&& opcodeMask = 0 := by
  have hrcode : ∀ rcode : Rcode, rcode.toWire &&& opcodeMask = 0 := by
    intro rcode
    cases rcode with
    | other value =>
      rw [Rcode.toWire, BitVec.and_assoc]
      exact BitVec.and_zero
    | _ => rfl
  have hflag : ∀ (b : Bool) {flag : BitVec 16}, flag &&& opcodeMask = 0 →
      (if b then flag else 0) &&& opcodeMask = 0 := by
    intro b flag h
    cases b with
    | true => exact h
    | false => exact BitVec.zero_and
  refine or_and_eq_zero (or_and_eq_zero (or_and_eq_zero (or_and_eq_zero (or_and_eq_zero ?_ (hrcode _)) ?_) ?_) ?_) ?_
  · rfl
  all_goals exact hflag _ rfl

theorem walk_spec : ∀ {left pos : ℕ} {olds : List (ResourceRecord × ℕ)},
    walk message left pos = .ok olds → ∀ old ∈ olds, RecordOk old.1 ∧ Stands message old.2 old.1.rdata := by
  intro left
  induction left with
  | zero =>
    intro pos olds h old hold
    cases h
    cases hold
  | succ left ih =>
    intro pos olds h old hold
    rw [walk, bind_eq_ok] at h
    obtain ⟨⟨r, at_⟩, hread, h⟩ := h
    rw [bind_eq_ok] at h
    obtain ⟨rest, hrest, h⟩ := h
    cases h
    obtain ⟨hok, hst, -⟩ := readRecord_spec hread
    rcases mem_cons.mp hold with rfl | hmem
    · exact ⟨hok, hst⟩
    · exact ih hrest old hmem

variable {news : List ResourceRecord}

theorem recordOk_rewritten {olds : List (ResourceRecord × ℕ)}
    (hall : Forall₂ (fun old new => Rewrites policy age old.1 new) olds news)
    (hok : ∀ old ∈ olds, RecordOk old.1) : ∀ new ∈ news, RecordOk new := by
  induction hall with
  | nil =>
    intro new hnew
    cases hnew
  | cons hone _ ih =>
    intro new hnew
    rcases mem_cons.mp hnew with rfl | hmem
    · exact hone.recordOk (hok _ mem_cons_self)
    · exact ih (fun old hold => hok old (mem_cons_of_mem _ hold)) new hmem

variable {flags : BitVec 16}

theorem answers_of_written (hq : Parsed qbytes query) (hflags : flags &&& opcodeMask = 0) (hlen : news.length < 65536)
    (hok : ∀ new ∈ news, RecordOk new) : ∃ w, parse (written query.id flags.toNat query.questionBytes news) = .ok w ∧
      w.answers = .ok (laidAt (headerBytes + query.questionBytes.length) news) ∧ w.answerCount = news.length ∧
      w.question = query.question ∧ w.id = query.id ∧ w.flags = flags := by
  have hsame : BitVec.ofNat 16 flags.toNat = flags := by rw [BitVec.ofNat_toNat, BitVec.setWidth_eq]
  obtain ⟨w, hparse, hbytes, hcount, hat, hques, hid, hwflags⟩ :=
    parse_written hq (hsame.symm ▸ hflags) flags.isLt hlen
  obtain ⟨-, -, -, -, -, -, -, hrecs⟩ := stands_written query.id flags.toNat query.questionBytes news
  refine ⟨w, hparse, ?_, hcount, hques, hid, hwflags.trans hsame⟩
  unfold Message.answers
  rw [hbytes, hcount, hat]
  exact walk_laid hok hrecs

/-- **A rewritten response reads back** as what became of the upstream answers. -/
theorem answers_written {r : Rewritten} (hquery : parse qbytes = .ok query) (hup : parse ubytes = .ok upstream)
    (hwrite : writeResponseAged out query upstream policy age = .ok (out', r)) :
    ∃ olds news w, upstream.answers = .ok olds ∧ Forall₂ (fun old new => Rewrites policy age old.1 new) olds news ∧
      out'.take r.len = written query.id (responseFlags query upstream).toNat query.questionBytes news ∧
      parse (out'.take r.len) = .ok w ∧
      w.answers = .ok (laidAt (headerBytes + query.questionBytes.length) news) ∧ w.answerCount = news.length ∧
      w.question = query.question ∧ w.id = query.id ∧ w.flags = responseFlags query upstream := by
  obtain ⟨olds, news, holds, hall, hcount, hout, -⟩ := writeResponseAged_spec hwrite
  have hlen : news.length < 65536 := by
    rw [← hall.length_eq, hcount]
    exact (parsed_of_parse hup).answerCount
  have hok := recordOk_rewritten hall (fun old hold => (walk_spec holds old hold).1)
  obtain ⟨w, hparse, hw⟩ := answers_of_written (parsed_of_parse hquery) (responseFlags_opcode query upstream) hlen hok
  rw [hout]
  exact ⟨olds, news, w, holds, hall, rfl, hparse, hw⟩

theorem map_fst_laidAt : ∀ (cursor : ℕ) (rs : List ResourceRecord), (laidAt cursor rs).map Prod.fst = rs
  | _, [] => rfl
  | cursor, r :: rs => by rw [laidAt, map_cons, map_fst_laidAt]

theorem answers_writeEmpty (hquery : parse qbytes = .ok query) (hflags : flags &&& opcodeMask = 0)
    (hwrite : writeEmpty out query flags = .ok (out', len)) :
    ∃ w, parse (out'.take len) = .ok w ∧ w.answers = .ok [] := by
  unfold writeEmpty writeHeaderAndQuestion at hwrite
  generalize hall : (flagResponse ||| flagRecursionAvailable ||| flags |||
    if query.recursionDesired then flagRecursionDesired else 0) = all at hwrite
  have hopcode : all &&& opcodeMask = 0 := by
    rw [← hall]
    refine or_and_eq_zero (or_and_eq_zero rfl hflags) ?_
    cases query.recursionDesired with
    | true | false => rfl
  have hw := writeAt_writes [toBeBytes query.id, toBeBytes all.toNat, toBeBytes 1, List.replicate 6 0,
    query.questionBytes] (fun b => rfl) hwrite
  have htake : out'.take len = written query.id all.toNat query.questionBytes [] := by
    have htake := hw.take_eq
    rw [htake]
    simp [written, header, toBeBytes]
  rw [htake]
  have hnone : ∀ new ∈ ([] : List ResourceRecord), RecordOk new := fun _ h => by cases h
  obtain ⟨w, hparse, hans, -⟩ := answers_of_written (parsed_of_parse hquery) hopcode (by decide) hnone
  exact ⟨w, hparse, hans⟩

end Boreas.Dns
