import Boreas.HttpResponse

/-! # The framing of HTTP/1.1 answers

What HTTP/1.1 says of a response: its head, where its body ends, and what is sent for the body.  `asFramed_iff` compares
with it what `read_http_response` gives, for every well-formed response and every way to cut the stream into reads.  The
reader does not know the chunked coding and looks at the first `connection` field only, which `Readable` is about. -/

namespace Boreas.Http1

open List hiding cons head length lt_of_le_of_lt next nil
open Option hiding bind min_eq_left none some
open Http

/-! ### Well-formed responses -/

def isFieldByte (b : UInt8) : Bool := b == 9 || (32 ≤ b && b != 127)

structure Field where
  name : Bytes
  content : Bytes
  ne_nil : name ≠ []
  token : ∀ b ∈ name, isToken (lower b) = true
  clear : ∀ b ∈ content, isFieldByte b = true

variable (f : Field)

def Field.line : Bytes := f.name ++ colon :: f.content

def Field.value : Bytes := trim f.content

variable (fields : List Field)

def valuesOf (name : Bytes) : List Bytes :=
  (fields.filter fun f => eqIgnoreAsciiCase f.name name).map Field.value

def hexDigit (b : UInt8) : Option ℕ :=
  if 48 ≤ b ∧ b ≤ 57 then some (b.toNat - 48)
  else if 97 ≤ lower b ∧ lower b ≤ 102 then some ((lower b).toNat - 87)
  else none

def chunkSize (digits : Bytes) : Option ℕ :=
  if digits = [] then none else digits.foldlM (fun n b => (hexDigit b).map (16 * n + ·)) 0

def isExtension (extension : Bytes) : Bool :=
  extension.all isFieldByte && (extension.isEmpty || (extension.dropWhile isBlank).head? == some 59)

inductive Chunked : Bytes → Bytes → Prop
  | last (size extension : Bytes) (trailers : List Field) (hsize : chunkSize size = some 0)
      (hextension : isExtension extension = true) :
      Chunked (size ++ extension ++ crlf ++ trailers.flatMap (fun f => f.line ++ crlf) ++ crlf) []
  | chunk (size extension data raw body : Bytes) (hsize : chunkSize size = some data.length) (hdata : data ≠ [])
      (hextension : isExtension extension = true) (rest : Chunked raw body) :
      Chunked (size ++ extension ++ crlf ++ data ++ crlf ++ raw) (data ++ body)

inductive Framing
  | chunked
  | length (n : ℕ)
  | close
deriving DecidableEq, Repr

def Framing.Sends : Framing → Bytes → Bytes → Prop
  | .chunked, raw, body => Chunked raw body
  | .length n, raw, body => raw = body ∧ body.length = n
  | .close, raw, body => raw = body

def isDigit (b : UInt8) : Bool := 48 ≤ b && b ≤ 57

def number (digits : Bytes) : ℕ := digits.foldl (fun n b => 10 * n + (b.toNat - 48)) 0

def contentLength : Option ℕ := (valuesOf fields (ascii "content-length")).head?.map number

def framing : Framing :=
  let codings := (valuesOf fields (ascii "transfer-encoding")).flatMap (Words.pieces isBlank comma)
  if codings.getLast?.any (eqIgnoreAsciiCase · (ascii "chunked")) then .chunked
  else (contentLength fields).elim .close .length

/-- A response with the status 200.  `raw` is what follows its head. -/
structure Response where
  reason : Bytes
  fields : List Field
  raw : Bytes
  body : Bytes
  reason_ok : ∀ b ∈ reason, isFieldByte b = true
  lengths : ∀ value ∈ valuesOf fields (ascii "content-length"),
    value ≠ [] ∧ (∀ b ∈ value, isDigit b = true) ∧ contentLength fields = some (number value)
  sent : (framing fields).Sends raw body

namespace Response

variable (m : Response)

def statusLine : Bytes := ascii "HTTP/1.1" ++ space :: (ascii "200" ++ space :: m.reason)

def head : Bytes := (m.statusLine :: m.fields.map Field.line).flatMap (· ++ crlf) ++ crlf

def anyClose : Bool := (valuesOf m.fields (ascii "connection")).any namesClose

def firstClose : Bool := (valuesOf m.fields (ascii "connection")).head?.any namesClose

end Response

/-- The answer is the body; a connection that is kept was read to the end of a response that ends by itself and does not
ask to close. -/
structure AsFramed (m : Response) (answer : Answered) : Prop where
  body : answer.body = m.body
  kept : answer.reusable = true →
    answer.consumed = m.head.length + m.raw.length ∧ framing m.fields ≠ .close ∧ m.anyClose = false

/-- The first `connection` field names close if one does; the chunked coding is not used, unless what it sends starts with
the body, which has the length that is also given, and the connection is closed. -/
def Readable (m : Response) : Prop :=
  match framing m.fields with
  | .chunked => contentLength m.fields = some m.body.length ∧ m.body <+: m.raw ∧ m.firstClose = true
  | .length _ => m.anyClose = true → m.firstClose = true
  | .close => True

/-! ### The head -/

variable {b : UInt8}

theorem ne_of_isFieldByte (h : isFieldByte b = true) : b ≠ cr ∧ b ≠ lf ∧ b ≠ 12 := by
  refine ⟨?_, ?_, ?_⟩
  all_goals
    rintro rfl
    revert h
    decide

theorem ne_of_isToken (h : isToken (lower b) = true) : b ≠ cr ∧ b ≠ lf ∧ b ≠ colon := by
  refine ⟨?_, ?_, ?_⟩
  all_goals
    rintro rfl
    revert h
    decide

structure Line (line : Bytes) : Prop where
  ne_nil : line ≠ []
  clear : ∀ b ∈ line, b ≠ cr ∧ b ≠ lf

theorem Field.isLine : Line f.line := by
  refine ⟨by simp [Field.line], fun b hb => ?_⟩
  obtain hb | hb := mem_append.mp hb
  · have h := ne_of_isToken (f.token b hb)
    exact ⟨h.1, h.2.1⟩
  · obtain rfl | hb := mem_cons.mp hb
    · decide
    · have h := ne_of_isFieldByte (f.clear b hb)
      exact ⟨h.1, h.2.1⟩

variable (m : Response)

theorem Response.isLine : Line m.statusLine := by
  refine ⟨by simp [statusLine], fun b hb => ?_⟩
  simp only [statusLine, mem_append, mem_cons] at hb
  obtain hb | rfl | hb | rfl | hb := hb
  · exact (by decide +kernel : ∀ b ∈ ascii "HTTP/1.1", b ≠ cr ∧ b ≠ lf) b hb
  · decide
  · exact (by decide +kernel : ∀ b ∈ ascii "200", b ≠ cr ∧ b ≠ lf) b hb
  · decide
  · have h := ne_of_isFieldByte (m.reason_ok b hb)
    exact ⟨h.1, h.2.1⟩

theorem findHeadEnd_skip : ∀ {line : Bytes} (rest : Bytes), (∀ b ∈ line, b ≠ cr) →
    findHeadEnd (line ++ rest) = (findHeadEnd rest).map (line.length + ·)
  | [], rest, _ => by simp
  | b :: line, rest, h => by
    have hb : ¬ [cr, lf, cr, lf] <+: b :: (line ++ rest) := fun hsta =>
      h b mem_cons_self (cons_prefix_cons.mp hsta).1.symm
    rw [cons_append, findHeadEnd, if_neg hb, findHeadEnd_skip rest fun b hb => h b (mem_cons_of_mem _ hb),
      Option.map_map]
    refine congrArg (Option.map · _) (funext fun n => ?_)
    simp only [Function.comp_apply, length_cons]
    omega

theorem findHeadEnd_crlf (hb : b ≠ cr) : findHeadEnd (crlf ++ b :: rest) = (findHeadEnd (b :: rest)).map (2 + ·) := by
  have hcr : ¬ [cr, lf, cr, lf] <+: cr :: lf :: b :: rest := fun hsta =>
    hb (cons_prefix_cons.mp (cons_prefix_cons.mp (cons_prefix_cons.mp hsta).2).2).1.symm
  have hlf : ¬ [cr, lf, cr, lf] <+: lf :: b :: rest := fun hsta =>
    absurd (cons_prefix_cons.mp hsta).1 (by decide)
  change findHeadEnd (cr :: lf :: b :: rest) = _
  rw [findHeadEnd, if_neg hcr, findHeadEnd, if_neg hlf, Option.map_map]
  exact congrArg (Option.map · _) (funext fun n => by simp only [Function.comp_apply]; omega)

theorem findHeadEnd_lines : ∀ {lines : List Bytes}, lines ≠ [] → (∀ line ∈ lines, Line line) →
    findHeadEnd (lines.flatMap (· ++ crlf) ++ crlf) = some (lines.flatMap (· ++ crlf) ++ crlf).length
  | [line], _, h => by
    have hline := h line mem_cons_self
    rw [flatMap_singleton, append_assoc, findHeadEnd_skip _ fun b hb => (hline.clear b hb).1, length_append]
    rfl
  | line :: next :: lines, _, h => by
    have hline := h line mem_cons_self
    have hnext := h next (mem_cons_of_mem _ mem_cons_self)
    have ih := findHeadEnd_lines (cons_ne_nil next lines) fun line hline => h line (mem_cons_of_mem _ hline)
    obtain ⟨b, rest, rfl⟩ := exists_cons_of_ne_nil hnext.ne_nil
    rw [flatMap_cons, append_assoc, append_assoc, findHeadEnd_skip _ fun b hb => (hline.clear b hb).1]
    change Option.map _ (findHeadEnd (crlf ++ b :: _)) = _
    rw [findHeadEnd_crlf (hnext.clear b mem_cons_self).1]
    change Option.map _ (Option.map _ (findHeadEnd (((b :: rest) :: lines).flatMap (· ++ crlf) ++ crlf))) = _
    rw [ih, map_some, map_some]
    simp only [length_append]
    rfl

theorem Response.findHeadEnd_head : findHeadEnd m.head = some m.head.length := by
  refine findHeadEnd_lines (cons_ne_nil _ _) fun line hline => ?_
  obtain rfl | hline := mem_cons.mp hline
  · exact m.isLine
  · obtain ⟨f, -, rfl⟩ := mem_map.mp hline
    exact f.isLine

/-! ### The fields -/

theorem splitOn_of_notMem (h : ∀ b ∈ xs, b ≠ sep) (ys : Bytes) :
    (xs ++ sep :: ys).splitOn sep = xs :: ys.splitOn sep := by
  unfold List.splitOn
  rw [splitOnP_append_cons xs ys (by simp), splitOnP_eq_singleton fun b hb => by simp [h b hb]]
  rfl

theorem splitOn_lines : ∀ {lines : List Bytes}, (∀ line ∈ lines, Line line) →
    (lines.flatMap (· ++ crlf) ++ crlf).splitOn lf = lines.map (· ++ [cr]) ++ [[cr], []]
  | [], _ => by decide
  | line :: lines, h => by
    have hline := h line mem_cons_self
    have hclear : ∀ b ∈ line ++ [cr], b ≠ lf := by
      intro b hb
      obtain hb | hb := mem_append.mp hb
      · exact (hline.clear b hb).2
      · rw [mem_singleton.mp hb]
        decide
    have hcut : (line :: lines).flatMap (· ++ crlf) ++ crlf =
        (line ++ [cr]) ++ lf :: (lines.flatMap (· ++ crlf) ++ crlf) := by
      simp [crlf]
    rw [hcut, splitOn_of_notMem hclear, splitOn_lines fun line hline => h line (mem_cons_of_mem _ hline)]
    rfl

theorem Response.statusIsOk_head : statusIsOk m.head = true := by
  have hhead : m.head.splitOn cr =
      m.statusLine :: (lf :: ((m.fields.map Field.line).flatMap (· ++ crlf) ++ crlf)).splitOn cr := by
    rw [← splitOn_of_notMem fun b hb => (m.isLine.clear b hb).1]
    simp [head, crlf]
  have hfld : m.statusLine.splitOn space = ascii "HTTP/1.1" :: ascii "200" :: m.reason.splitOn space := by
    rw [statusLine, splitOn_of_notMem (by decide +kernel), splitOn_of_notMem (by decide +kernel)]
  unfold statusIsOk
  rw [hhead]
  dsimp only [headD_cons]
  rw [hfld]
  simp

theorem Field.lineValue_line (name : Bytes) :
    lineValue name (f.line ++ [cr]) = if eqIgnoreAsciiCase f.name name then some f.value else none := by
  have hname : f.name.findIdx? (· == colon) = none :=
    findIdx?_eq_none_iff.mpr fun b hb => by simp [(ne_of_isToken (f.token b hb)).2.2]
  have hat : (f.line ++ [cr]).findIdx? (· == colon) = some f.name.length := by
    simp [Field.line, findIdx?_append, hname, findIdx?_cons]
  have htrim : trimAscii (f.content ++ [cr]) = f.value := by
    change Words.trim isAsciiWhitespace (f.content ++ [cr]) = Words.trim isBlank f.content
    rw [Words.trim_snoc (by decide)]
    refine Words.trim_congr fun b hb => ?_
    obtain ⟨hcr, hlf, hff⟩ := ne_of_isFieldByte (f.clear b hb)
    unfold isAsciiWhitespace isBlank
    rw [show (b == 10) = false from beq_eq_false_iff_ne.mpr hlf, show (b == 12) = false from beq_eq_false_iff_ne.mpr hff,
      show (b == 13) = false from beq_eq_false_iff_ne.mpr hcr]
    simp only [Bool.or_false]
  unfold lineValue
  rw [hat]
  simp [Field.line, htrim]

theorem findSome?_lines (fields : List Field) (name : Bytes) :
    ((fields.map Field.line).map (· ++ [cr])).findSome? (lineValue name) = (valuesOf fields name).head? := by
  induction fields with
  | nil => rfl
  | cons f fields ih =>
    rw [map_cons, map_cons, findSome?_cons, f.lineValue_line]
    by_cases hname : eqIgnoreAsciiCase f.name name = true
    · simp [valuesOf, hname]
    · simpa [valuesOf, hname] using ih

/-- **The reader finds the first field with a name.** -/
theorem Response.header_head (name : Bytes) : header m.head name = (valuesOf m.fields name).head? := by
  have hlines : ∀ line ∈ m.statusLine :: m.fields.map Field.line, Line line := by
    intro line hline
    obtain rfl | hline := mem_cons.mp hline
    · exact m.isLine
    · obtain ⟨f, -, rfl⟩ := mem_map.mp hline
      exact f.isLine
  unfold header head
  rw [splitOn_lines hlines, map_cons, cons_append, drop_one, tail_cons, findSome?_append,
    findSome?_lines]
  exact or_none

/-! ### The length -/

theorem toNat_digit (h : isDigit b = true) : 48 ≤ b.toNat ∧ b.toNat ≤ 57 := by
  simp only [isDigit, Bool.and_eq_true, decide_eq_true_eq] at h
  exact h

theorem toNat_ofNat_digit (h : isDigit b = true) : (Char.ofNat b.toNat).toNat = b.toNat :=
  (by decide : ∀ n ≤ 57, (Char.ofNat n).toNat = n) b.toNat (toNat_digit h).2

theorem fromUtf8_digits : ∀ {digits : Bytes}, (∀ b ∈ digits, isDigit b = true) →
    fromUtf8 digits = some (digits.map fun b => Char.ofNat b.toNat)
  | [], _ => by simp [fromUtf8]
  | b :: digits, h => by
    have hlt : b < 128 :=
      UInt8.lt_iff_toNat_lt.mpr (lt_of_le_of_lt (toNat_digit (h b mem_cons_self)).2 (by decide))
    unfold fromUtf8
    rw [if_pos hlt, fromUtf8_digits fun b hb => h b (mem_cons_of_mem _ hb)]
    rfl

theorem parseUsize_digits {text : Text} (hne : text ≠ []) (h : ∀ c ∈ text, 48 ≤ c.toNat ∧ c.toNat ≤ 57) :
    parseUsize text.trim = if decimal text < usizeEnd then some (decimal text) else none := by
  have hword : Words.IsWord Text.isWhitespace text := by
    refine ⟨hne, fun c hc => ?_⟩
    have hc := h c hc
    simp only [Text.isWhitespace, Bool.or_eq_false_iff, Bool.and_eq_false_iff, beq_eq_false_iff_ne, decide_eq_false_iff_not]
    omega
  have hplus : text.head? ≠ some '+' := fun hplus => absurd (h '+' (mem_of_mem_head? hplus)) (by decide)
  have hall : text.all Char.isDigit = true := by
    refine all_eq_true.mpr fun c hc => ?_
    simp only [Char.isDigit, Bool.and_eq_true, decide_eq_true_eq]
    exact h c hc
  rw [show text.trim = text from hword.trimmed.trim_eq]
  unfold parseUsize
  rw [if_neg hplus]
  simp [hne, hall]

theorem parseLength_digits (hne : digits ≠ []) (h : ∀ b ∈ digits, isDigit b = true) :
    parseLength digits = if number digits < usizeEnd then some (number digits) else none := by
  have hnum : decimal (digits.map fun b => Char.ofNat b.toNat) = number digits := by
    unfold decimal number
    rw [foldl_map]
    exact foldl_ext _ _ _ fun n b hb => by rw [toNat_ofNat_digit (h b hb)]
  unfold parseLength
  rw [fromUtf8_digits h, bind_some, parseUsize_digits (by simpa using hne) fun c hc => ?_, hnum]
  obtain ⟨b, hb, rfl⟩ := mem_map.mp hc
  rw [toNat_ofNat_digit (h b hb)]
  exact toNat_digit (h b hb)

theorem Response.length_cases :
    (∃ n, contentLength m.fields = some n ∧ (valuesOf m.fields (ascii "content-length")).head?.bind parseLength = some n) ∨
      (∀ n, contentLength m.fields = some n → maxDnsMessage < n) ∧
        (valuesOf m.fields (ascii "content-length")).head?.bind parseLength = none := by
  unfold contentLength
  rcases hvalue : (valuesOf m.fields (ascii "content-length")).head? with _ | value
  · exact .inr ⟨nofun, rfl⟩
  obtain ⟨hne, hdigits, -⟩ := m.lengths value (mem_of_mem_head? hvalue)
  rw [bind_some, parseLength_digits hne hdigits]
  split_ifs with hlt
  · exact .inl ⟨_, rfl, rfl⟩
  · refine .inr ⟨fun n hn => ?_, rfl⟩
    cases hn
    exact lt_of_lt_of_le (by decide) (Nat.le_of_not_lt hlt)

/-! ### What is answered -/

/-- **What is answered** depends on the length and on what follows the head. -/
theorem answered (hcar : Carries reads (m.head ++ rest)) (hread : readHttpResponse reads = .ok answer) :
    (∃ n, contentLength m.fields = some n ∧ n ≤ rest.length ∧
        answer = ⟨rest.take n, !m.firstClose, m.head.length + n⟩) ∨
      (∀ n, contentLength m.fields = some n → maxDnsMessage < n) ∧ rest.length ≤ maxDnsMessage ∧
        answer = ⟨rest, false, m.head.length + rest.length⟩ := by
  unfold readHttpResponse at hread
  rcases hhead : readHead [] reads with _ | ⟨buf, at_, reads'⟩
  · rw [hhead] at hread
    cases hread
  obtain ⟨_, left, hstr, rfl, hat, hleft⟩ := readHead_eq_ok hcar hhead
  -- The head ends where it ends in the whole stream.
  obtain rfl : at_ = m.head.length := by
    have hfound := findHeadEnd_append left hat
    rw [← hstr, findHeadEnd_append rest m.findHeadEnd_head] at hfound
    exact (Option.some.inj hfound).symm
  obtain ⟨body, rfl, rfl⟩ : ∃ body, buf = m.head ++ body ∧ rest = body ++ left := by
    obtain ⟨body, hbody⟩ := prefix_of_prefix_length_le ⟨rest, rfl⟩ ⟨left, hstr.symm⟩ (findHeadEnd_le hat).2
    refine ⟨body, hbody.symm, ?_⟩
    rw [← hbody, append_assoc] at hstr
    exact append_cancel_left hstr
  rw [hhead] at hread
  simp only [bind, Except.bind, take_left, m.statusIsOk_head, if_true, readBody, drop_left, m.header_head]
    at hread
  obtain ⟨n, hn, hpar⟩ | ⟨hlong, hpar⟩ := m.length_cases
  · rw [hpar] at hread
    dsimp only at hread
    split_ifs at hread with hlong hsurplus
    rcases hexact : readExact (n - body.length) reads' with _ | more
    · rw [hexact] at hread
      cases hread
    rw [hexact] at hread
    cases hread
    obtain ⟨hle, rfl⟩ := readExact_eq_some hleft hexact
    refine .inl ⟨n, hn, by rw [length_append]; omega, ?_⟩
    rw [List.take_append, take_of_length_le (Nat.le_of_not_lt hsurplus), length_append]
    congr 1
    omega
  · rw [hpar] at hread
    rcases hclose : readToClose body reads' with _ | body'
    · rw [hclose] at hread
      cases hread
    rw [hclose] at hread
    cases hread
    obtain ⟨rfl, hle⟩ := readToClose_eq_ok hleft hclose
    exact .inr ⟨hlong, hle, rfl⟩

theorem Chunked.length_lt (h : Chunked raw body) : body.length < raw.length := by
  induction h with
  | last size ext trailers hsize hextension =>
    simp only [length_append, crlf, length_cons]
    omega
  | chunk size ext data raw body hsize hdata hextension rest ih =>
    simp only [length_append]
    omega

theorem Response.sent_plain (h : framing m.fields ≠ .chunked) :
    m.raw = m.body ∧ (framing m.fields = .close ∧ contentLength m.fields = none ∨
      framing m.fields = .length m.body.length ∧ contentLength m.fields = some m.body.length) := by
  have hsent := m.sent
  have hfram : framing m.fields = (contentLength m.fields).elim .close .length := by
    unfold framing at h ⊢
    dsimp only at h ⊢
    split_ifs at h ⊢
    · exact absurd rfl h
    · rfl
  rcases hlen : contentLength m.fields with _ | n
  · rw [hlen] at hfram
    rw [hfram] at hsent ⊢
    exact ⟨hsent, .inl ⟨rfl, rfl⟩⟩
  rw [hlen] at hfram
  rw [hfram] at hsent ⊢
  obtain ⟨hraw, rfl⟩ := hsent
  exact ⟨hraw, .inr ⟨rfl, rfl⟩⟩

/-- **An answer is the response's as HTTP/1.1 frames it exactly if the response is readable**, however the stream is cut
into reads and whatever follows a response that ends by itself. -/
theorem asFramed_iff (m : Response) (surplus : Bytes) (hsurplus : framing m.fields = .close → surplus = [])
    (reads : List Read) (hcarries : Carries reads (m.head ++ (m.raw ++ surplus))) (answer : Answered)
    (hread : readHttpResponse reads = .ok answer) : AsFramed m answer ↔ Readable m := by
  have hans := answered m hcarries hread
  unfold Readable
  by_cases hfram : framing m.fields = .chunked
  · have hlt : m.body.length < m.raw.length := by
      have hsent := m.sent
      rw [hfram] at hsent
      exact hsent.length_lt
    rw [hfram]
    obtain ⟨n, hn, hle, rfl⟩ | ⟨hlong, hle, rfl⟩ := hans
    · constructor
      · intro h
        have hbody : (m.raw ++ surplus).take n = m.body := h.body
        obtain rfl : n = m.body.length := by
          rw [← hbody, length_take, min_eq_left hle]
        rw [take_append_of_le_length hlt.le] at hbody
        refine ⟨hn, hbody ▸ take_prefix _ _, ?_⟩
        cases hfirst : m.firstClose with
        | true => rfl
        | false =>
          have hcons : m.head.length + m.body.length = _ := (h.kept (by simp [hfirst])).1
          omega
      · rintro ⟨hn', hsta, hfirst⟩
        obtain rfl : n = m.body.length := Option.some.inj (hn.symm.trans hn')
        refine ⟨?_, fun hkept => by simp [hfirst] at hkept⟩
        rw [take_append_of_le_length hlt.le]
        exact (prefix_iff_eq_take.mp hsta).symm
    · rw [length_append] at hle
      constructor
      · intro h
        have hbody : (m.raw ++ surplus).length = m.body.length := congrArg List.length h.body
        rw [length_append] at hbody
        omega
      · rintro ⟨hn, -, -⟩
        have hn := hlong _ hn
        omega
  · obtain ⟨hraw, ⟨hclose, hnone⟩ | ⟨hlen, hn⟩⟩ := m.sent_plain hfram
    · rw [hclose]
      obtain ⟨n, hn, -⟩ | ⟨-, -, rfl⟩ := hans
      · rw [hnone] at hn
        cases hn
      · rw [hsurplus hclose, append_nil, hraw]
        exact iff_of_true ⟨rfl, nofun⟩ trivial
    · rw [hlen]
      obtain ⟨n, hn', -, rfl⟩ | ⟨hlong, hle, -⟩ := hans
      · obtain rfl : n = m.body.length := Option.some.inj (hn'.symm.trans hn)
        rw [hraw, take_left]
        constructor
        · intro h hany
          by_contra hfirst
          have hkept := h.kept (by simpa using hfirst)
          rw [hany] at hkept
          cases hkept.2.2
        · intro h
          refine ⟨rfl, fun hkept => ⟨by rw [hraw], by rw [hlen]; nofun, Bool.eq_false_iff.mpr fun hany => ?_⟩⟩
          rw [h hany] at hkept
          cases hkept
      · have hn := hlong _ hn
        rw [hraw, length_append] at hle
        omega

/-! ### Three answers -/

def fieldOf (name content : Bytes) (h : name ≠ [] ∧ (∀ b ∈ name, isToken (lower b) = true) ∧
    ∀ b ∈ content, isFieldByte b = true) : Field := ⟨name, content, h.1, h.2.1, h.2.2⟩

def lengthOne : Field := fieldOf (ascii "Content-Length") (ascii " 1") (by decide +kernel)

def keepAlive : Field := fieldOf (ascii "Connection") (ascii " keep-alive") (by decide +kernel)

def closing : Field := fieldOf (ascii "Connection") (ascii " close") (by decide +kernel)

def coded : Field := fieldOf (ascii "Transfer-Encoding") (ascii " chunked") (by decide +kernel)

def keptAnswer : Response :=
  ⟨ascii "OK", [lengthOne, keepAlive], [7], [7], by decide +kernel, by decide +kernel, by exact ⟨rfl, by decide +kernel⟩⟩

def closingAnswer : Response :=
  ⟨ascii "OK", [lengthOne, keepAlive, closing], [7], [7], by decide +kernel, by decide +kernel,
    by exact ⟨rfl, by decide⟩⟩

def chunkedAnswer : Response :=
  ⟨ascii "OK", [coded], ascii "1" ++ [] ++ crlf ++ [7] ++ crlf ++ (ascii "0" ++ [] ++ crlf ++ [] ++ crlf), [7] ++ [],
    by decide +kernel, by decide +kernel,
    .chunk _ _ _ _ _ (by decide) (by decide) (by decide) (.last _ _ [] (by decide) (by decide))⟩

def inOne (m : Response) (h : (m.head ++ m.raw).length ≤ readSize) : List Read :=
  [.data ⟨m.head ++ m.raw, by simp [Response.head, Response.statusLine], h⟩]

theorem asFramed_keptAnswer : AsFramed keptAnswer ⟨[7], true, keptAnswer.head.length + 1⟩ ↔ Readable keptAnswer :=
  asFramed_iff keptAnswer [] (fun _ => rfl) (inOne keptAnswer (by decide))
    ⟨⟨[], by simp⟩, by simp [Carries]⟩ _ (by decide)

/-- The chunks are given as the body, and the connection that the second field closes is kept. -/
theorem misread_answers : readHttpResponse (inOne chunkedAnswer (by decide)) =
        .ok ⟨ascii "1\r\n" ++ [7] ++ ascii "\r\n0\r\n\r\n", false, chunkedAnswer.head.length + 11⟩ ∧
      chunkedAnswer.body = [7] ∧
      readHttpResponse (inOne closingAnswer (by decide)) = .ok ⟨[7], true, closingAnswer.head.length + 1⟩ ∧
      closingAnswer.anyClose = true := by
  decide

end Boreas.Http1
