import Boreas.Wire

/-! # Domain names on the wire

`Name` (policy/dns.rs) is a normalised domain name.  `Name.read` decodes one from a message, following compression
pointers, and `Name.write` encodes one without.  `Reads` is the decoder as a relation, and the two
agree (`read_eq_of_reads`, `reads_of_read_eq`): the loop's fuel is never what stops it. -/

namespace Boreas.Dns

open List Slices UInt8

def maxNameChars : ℕ := 253

def maxLabelLen : ℕ := 63

def dot : UInt8 := 46

inductive DnsError
  | truncated
  | reservedLabel
  | forwardPointer
  | nameTooLong
  | separatorInLabel
  | notAQuery
  | noQuestion
  | multipleQuestions (count : ℕ)
  | compressedQuestion
  | svcParamsOutOfOrder
  | emptyAlpnIdentifier
  | outputTooSmall
deriving DecidableEq, Repr

/-! ### Labels -/

theorem lower_eq_dot : lower b = dot ↔ b = dot := by
  unfold lower dot
  split_ifs with h
  · have h1 := le_iff_toNat_le.mp h.1
    have h2 := le_iff_toNat_le.mp h.2
    constructor
    · intro he
      have he' := congrArg toNat he
      simp at h1 h2 he'
      omega
    · rintro rfl
      simp at h1
  · rfl

structure LabelOk (label : Bytes) : Prop where
  ne_nil : label ≠ []
  short : label.length ≤ maxLabelLen
  no_dot : dot ∉ label

theorem labelOk_lower (h : LabelOk label) : LabelOk (label.map lower) := by
  refine ⟨by simpa using h.ne_nil, by simpa using h.short, fun hmem => ?_⟩
  obtain ⟨b, hb, he⟩ := mem_map.mp hmem
  exact h.no_dot (lower_eq_dot.mp he ▸ hb)

def joinLabels (labels : List Bytes) : Bytes := [dot].intercalate labels

def Normal (bytes : Bytes) : Prop :=
  ∃ labels : List Bytes, (∀ l ∈ labels, LabelOk l ∧ l.map lower = l) ∧ bytes = joinLabels labels

structure Name where
  bytes : Bytes
  short : bytes.length ≤ maxNameChars
  normal : Normal bytes

namespace Name

theorem ext_bytes {b : Name} (h : a.bytes = b.bytes) : a = b := by
  cases a; cases b; cases h; rfl

instance : DecidableEq Name := fun a b =>
  if h : a.bytes = b.bytes then isTrue (ext_bytes h) else isFalse (fun he => h (congrArg Name.bytes he))

def root : Name := ⟨[], by decide, [], by simp, rfl⟩

def wireLen (n : Name) : ℕ := if n.bytes = [] then 1 else n.bytes.length + 2

end Name

def pushed (bytes label : Bytes) : Bytes :=
  if bytes = [] then label.map lower else bytes ++ dot :: label.map lower

theorem joinLabels_snoc (h : labels ≠ []) : joinLabels (labels ++ [label]) = joinLabels labels ++ dot :: label := by
  unfold joinLabels
  induction labels with
  | nil => exact absurd rfl h
  | cons l ls ih =>
    rcases ls with _ | ⟨l', ls⟩
    · simp
    have ih' := ih (cons_ne_nil l' ls)
    simp only [cons_append, intercalate_cons_cons] at ih' ⊢
    rw [ih']
    simp

theorem joinLabels_ne_nil (h : labels ≠ []) (hok : ∀ l ∈ labels, LabelOk l) : joinLabels labels ≠ [] := by
  unfold joinLabels
  rcases labels with _ | ⟨l, ls⟩
  · exact absurd rfl h
  have hl := (hok l mem_cons_self).ne_nil
  cases ls with
  | nil => simpa using hl
  | cons l' ls => simp

theorem pushed_joinLabels (hok : ∀ l ∈ labels, LabelOk l) (label : Bytes) :
    pushed (joinLabels labels) label = joinLabels (labels ++ [label.map lower]) := by
  unfold pushed
  by_cases h : labels = []
  · subst h
    simp [joinLabels]
  · rw [if_neg (joinLabels_ne_nil h hok), joinLabels_snoc h]

theorem normal_pushed (h : Normal bytes) (hl : LabelOk label) : Normal (pushed bytes label) := by
  obtain ⟨labels, hok, rfl⟩ := h
  refine ⟨labels ++ [label.map lower], fun l hmem => ?_, pushed_joinLabels (fun l hl => (hok l hl).1) label⟩
  rcases mem_append.mp hmem with hmem | hmem
  · exact hok l hmem
  · rw [mem_singleton.mp hmem]
    exact ⟨labelOk_lower hl, by simp [lower_lower]⟩

variable (n : Name)

def Name.push (label : Bytes) (hl : LabelOk label)
    (hlen : (pushed n.bytes label).length ≤ maxNameChars) : Name :=
  ⟨pushed n.bytes label, hlen, normal_pushed n.normal hl⟩

theorem length_pushed (bytes label : Bytes) :
    (pushed bytes label).length = bytes.length + (if bytes = [] then 0 else 1) + label.length := by
  unfold pushed
  split_ifs with h
  · subst h
    simp
  · simp
    omega

/-! ### The decoder -/

variable {message : Bytes}

theorem labelOk_slice {length : UInt8} (hne : length ≠ 0)
    (hlt : length.toNat < 64) (hfits : cursor + 1 + length.toNat ≤ message.length)
    (hdot : dot ∉ slice message (cursor + 1) length.toNat) : LabelOk (slice message (cursor + 1) length.toNat) := by
  have hlen := length_slice hfits
  refine ⟨fun h => hne ?_, by rw [hlen]; unfold maxLabelLen; omega, hdot⟩
  rw [h] at hlen
  exact UInt8.toNat_inj.mp hlen.symm

def pointerTarget (high low : UInt8) : ℕ := fromBeBytes (high &&& 0x3f) low

/-- The loop of `Name::read`: the name so far, the position, and the end of the name at its own place once a pointer
was followed.  `none` when the fuel runs out. -/
def readLoop (message : Bytes) : ℕ → Name → ℕ → Option ℕ → Option (Except DnsError (Name × ℕ))
  | 0, _, _, _ => none
  | fuel + 1, name, cursor, consumed =>
    match message[cursor]? with
    | none => some (.error .truncated)
    | some length =>
      if h0 : length = 0 then some (.ok (name, consumed.getD (cursor + 1)))
      else if h64 : length.toNat < 64 then
        if hfits : cursor + 1 + length.toNat ≤ message.length then
          if hdot : dot ∈ slice message (cursor + 1) length.toNat then some (.error .separatorInLabel)
          else if hlen : (pushed name.bytes (slice message (cursor + 1) length.toNat)).length ≤ maxNameChars then
            readLoop message fuel (name.push _ (labelOk_slice h0 h64 hfits hdot) hlen)
              (cursor + 1 + length.toNat) consumed
          else some (.error .nameTooLong)
        else some (.error .truncated)
      else if 192 ≤ length.toNat then
        match message[cursor + 1]? with
        | none => some (.error .truncated)
        | some low =>
          if pointerTarget length low ≥ cursor then some (.error .forwardPointer)
          else readLoop message fuel name (pointerTarget length low) (some (consumed.getD (cursor + 2)))
      else some (.error .reservedLabel)

/-- Enough fuel for a message: each label lengthens the name and each pointer goes back. -/
def readFuel (message : Bytes) : ℕ := (maxNameChars + 1) * (message.length + 1)

def Name.read (message : Bytes) (at_ : ℕ) : Except DnsError (Name × ℕ) :=
  if at_ ≤ message.length then
    match readLoop message (readFuel message) Name.root at_ none with
    | some (.ok (name, stop)) => .ok (name, stop - at_)
    | some (.error e) => .error e
    | none => .error .truncated
  else .error .truncated

inductive Reads (message : Bytes) : Name → ℕ → Option ℕ → Name → ℕ → Prop
  | stop {name : Name} {cursor : ℕ} {consumed : Option ℕ} (h : message[cursor]? = some 0) :
      Reads message name cursor consumed name (consumed.getD (cursor + 1))
  | label {name out : Name} {cursor stop : ℕ} {consumed : Option ℕ} {length : UInt8}
      (h : message[cursor]? = some length) (h0 : length ≠ 0) (h64 : length.toNat < 64)
      (hfits : cursor + 1 + length.toNat ≤ message.length)
      (hdot : dot ∉ slice message (cursor + 1) length.toNat)
      (hlen : (pushed name.bytes (slice message (cursor + 1) length.toNat)).length ≤ maxNameChars)
      (next : Reads message (name.push _ (labelOk_slice h0 h64 hfits hdot) hlen) (cursor + 1 + length.toNat)
        consumed out stop) : Reads message name cursor consumed out stop
  | pointer {name out : Name} {cursor stop : ℕ} {consumed : Option ℕ} {high low : UInt8}
      (h : message[cursor]? = some high) (h192 : 192 ≤ high.toNat) (hlow : message[cursor + 1]? = some low)
      (hback : pointerTarget high low < cursor)
      (next : Reads message name (pointerTarget high low) (some (consumed.getD (cursor + 2))) out stop) :
      Reads message name cursor consumed out stop

theorem reads_of_readLoop : ∀ {fuel : ℕ} {name out : Name} {cursor stop : ℕ} {consumed : Option ℕ},
    readLoop message fuel name cursor consumed = some (.ok (out, stop)) →
      Reads message name cursor consumed out stop := by
  intro fuel
  induction fuel with
  | zero => intro _ _ _ _ _ h; cases h
  | succ fuel ih =>
    intro name out cursor stop consumed h
    rw [readLoop] at h
    rcases hbyte : message[cursor]? with _ | length
    · rw [hbyte] at h; cases h
    rw [hbyte] at h
    dsimp only at h
    split_ifs at h with h0 h64 hfits hdot hlen h192
    · cases h
      subst h0
      exact .stop hbyte
    · cases h
    · exact .label hbyte h0 h64 hfits hdot hlen (ih h)
    · cases h
    · cases h
    · rcases hlow : message[cursor + 1]? with _ | low
      · rw [hlow] at h; cases h
      rw [hlow] at h
      dsimp only at h
      split_ifs at h with hback
      · cases h
      · exact .pointer hbyte h192 hlow (not_le.mp hback) (ih h)
    · cases h

variable {consumed : Option ℕ} {name out : Name} {cursor stop : ℕ}

/-- Each label lengthens the name, and each pointer goes back in the message without shortening it. -/
theorem readLoop_isSome : ∀ (fuel : ℕ) (name : Name) (cursor : ℕ) (consumed : Option ℕ),
    (maxNameChars - name.bytes.length) * (message.length + 1) + min cursor message.length < fuel →
      (readLoop message fuel name cursor consumed).isSome := by
  intro fuel
  induction fuel with
  | zero => exact fun _ _ _ h => absurd h (Nat.not_lt_zero _)
  | succ fuel ih =>
    intro name cursor consumed hfuel
    rw [readLoop]
    rcases hbyte : message[cursor]? with _ | length
    · rfl
    have hcur := (List.getElem?_eq_some_iff.mp hbyte).1
    dsimp only
    split_ifs with h0 h64 hfits hdot hlen h192
    · rfl
    · rfl
    · refine ih _ _ _ ?_
      have hpush := length_pushed name.bytes (slice message (cursor + 1) length.toNat)
      rw [length_slice hfits] at hpush
      have hpos : 0 < length.toNat := Nat.pos_of_ne_zero fun hz => h0 (UInt8.toNat_inj.mp hz)
      have hless : maxNameChars - (pushed name.bytes (slice message (cursor + 1) length.toNat)).length + 1 ≤
          maxNameChars - name.bytes.length := by omega
      have hmul := Nat.mul_le_mul_right (message.length + 1) hless
      rw [Nat.add_mul] at hmul
      dsimp only [Name.push]
      omega
    · rfl
    · rfl
    · rcases message[cursor + 1]? with _ | low
      · rfl
      dsimp only
      split_ifs with hback
      · rfl
      · exact ih _ _ _ (by omega)
    · rfl

theorem readLoop_readFuel (message : Bytes) (at_ : ℕ) :
    (readLoop message (readFuel message) Name.root at_ none).isSome := by
  refine readLoop_isSome _ _ _ _ ?_
  simp only [readFuel, Name.root, length_nil, maxNameChars]
  omega

theorem readLoop_of_reads (h : Reads message name cursor consumed out stop) : ∀ fuel,
    (readLoop message fuel name cursor consumed).isSome →
      readLoop message fuel name cursor consumed = some (.ok (out, stop)) := by
  induction h with
  | stop h =>
    intro fuel hsome
    cases fuel with
    | zero => cases hsome
    | succ fuel => simp [readLoop, h]
  | label h h0 h64 hfits hdot hlen next ih =>
    intro fuel hsome
    cases fuel with
    | zero => cases hsome
    | succ fuel =>
      rw [readLoop, h] at hsome ⊢
      dsimp only at hsome ⊢
      rw [dif_neg h0, dif_pos h64, dif_pos hfits, dif_neg hdot, dif_pos hlen] at hsome ⊢
      exact ih fuel hsome
  | @pointer name out cursor stop consumed high low h h192 hlow hback next ih =>
    intro fuel hsome
    cases fuel with
    | zero => cases hsome
    | succ fuel =>
      have h0 : high ≠ 0 := by rintro rfl; simp at h192
      have h64 : ¬ high.toNat < 64 := by omega
      rw [readLoop, h] at hsome ⊢
      dsimp only at hsome ⊢
      rw [dif_neg h0, dif_neg h64, if_pos h192, hlow] at hsome ⊢
      dsimp only at hsome ⊢
      rw [if_neg (not_le.mpr hback)] at hsome ⊢
      exact ih fuel hsome

theorem Reads.cursor_lt (h : Reads message name cursor consumed out stop) : cursor < message.length := by
  cases h with
  | stop h | label h | pointer h => exact (List.getElem?_eq_some_iff.mp h).1

/-- **The decoder's fuel suffices**: `read` gives what the relation reads. -/
theorem read_eq_of_reads
    (h : Reads message Name.root at_ none out stop) : Name.read message at_ = .ok (out, stop - at_) := by
  have hlt := h.cursor_lt
  unfold Name.read
  rw [if_pos hlt.le, readLoop_of_reads h _ (readLoop_readFuel message at_)]

theorem reads_of_read_eq {n : ℕ} (h : Name.read message at_ = .ok (out, n)) :
    ∃ stop, Reads message Name.root at_ none out stop ∧ n = stop - at_ := by
  unfold Name.read at h
  split_ifs at h
  rcases hloop : readLoop message (readFuel message) Name.root at_ none with _ | r
  · rw [hloop] at h; cases h
  rw [hloop] at h
  rcases r with _ | p
  · cases h
  cases h
  exact ⟨p.2, reads_of_readLoop hloop, rfl⟩

/-! ### Labels in place -/

def wireLabels (labels : List Bytes) : Bytes := labels.flatMap (fun l => ofNat l.length :: l)

@[simp] theorem wireLabels_nil : wireLabels [] = [] := rfl

theorem wireLabels_cons : wireLabels (l :: ls) = ofNat l.length :: (l ++ wireLabels ls) := by
  simp [wireLabels]

theorem length_wireLabels_cons : (wireLabels (l :: ls)).length = 1 + l.length + (wireLabels ls).length := by
  rw [wireLabels_cons, length_cons, length_append]
  omega

theorem wireLabels_append : wireLabels (ls ++ ms) = wireLabels ls ++ wireLabels ms := by
  simp [wireLabels]

variable {l : Bytes}

theorem lengthByte_spec (h : LabelOk l) :
    ofNat l.length ≠ 0 ∧ (ofNat l.length).toNat < 64 ∧ (ofNat l.length).toNat = l.length := by
  have hshort := h.short
  unfold maxLabelLen at hshort
  have hnat : (ofNat l.length).toNat = l.length := by
    rw [toNat_ofNat']
    omega
  refine ⟨fun hz => ?_, by omega, hnat⟩
  rw [hz] at hnat
  exact h.ne_nil (length_eq_zero_iff.mp hnat.symm)

variable {ls : List Bytes}

theorem stands_wireLabels_cons :
    Stands message cursor (wireLabels (l :: ls)) ↔ message[cursor]? = some (ofNat l.length) ∧
      Stands message (cursor + 1) l ∧ Stands message (cursor + 1 + l.length) (wireLabels ls) := by
  rw [wireLabels_cons, stands_cons, stands_append]

theorem stands_wireLabels_cons_append : Stands message cursor (wireLabels (l :: ls) ++ back) ↔
    message[cursor]? = some (ofNat l.length) ∧ Stands message (cursor + 1) l ∧
      Stands message (cursor + 1 + l.length) (wireLabels ls ++ back) := by
  rw [wireLabels_cons, cons_append, append_assoc, stands_cons, stands_append]

def EndsAt (message : Bytes) (name : Name) (cursor : ℕ) (consumed : Option ℕ) (out : Name) (stop : ℕ) : Prop :=
  (message[cursor]? = some 0 ∧ out = name ∧ stop = consumed.getD (cursor + 1)) ∨
    ∃ high low, message[cursor]? = some high ∧ 192 ≤ high.toNat ∧ message[cursor + 1]? = some low ∧
      pointerTarget high low < cursor ∧
      Reads message name (pointerTarget high low) (some (consumed.getD (cursor + 2))) out stop

theorem Reads.inline (h : Reads message name cursor consumed out stop) :
    ∃ (labels : List Bytes) (mid : Name), (∀ l ∈ labels, LabelOk l) ∧ Stands message cursor (wireLabels labels) ∧
      mid.bytes = labels.foldl pushed name.bytes ∧
      EndsAt message mid (cursor + (wireLabels labels).length) consumed out stop := by
  induction h with
  | @stop name cursor consumed h =>
    exact ⟨[], name, by simp, stands_nil, rfl, .inl ⟨h, rfl, rfl⟩⟩
  | @pointer name out cursor stop consumed high low h h192 hlow hback next ih =>
    exact ⟨[], name, by simp, stands_nil, rfl, .inr ⟨high, low, h, h192, hlow, hback, next⟩⟩
  | @label name out cursor stop consumed length h h0 h64 hfits hdot hlen next ih =>
    obtain ⟨labels, mid, hok, hst, hmid, hends⟩ := ih
    have hl := labelOk_slice h0 h64 hfits hdot
    have hllen := length_slice hfits
    refine ⟨slice message (cursor + 1) length.toNat :: labels, mid, ?_, ?_, hmid, ?_⟩
    · intro l hmem
      rcases mem_cons.mp hmem with rfl | hmem
      · exact hl
      · exact hok l hmem
    · rw [stands_wireLabels_cons, hllen]
      refine ⟨?_, stands_slice hfits, hst⟩
      rw [h, UInt8.ofNat_toNat]
    · rw [length_wireLabels_cons, hllen]
      have hidx : cursor + (1 + length.toNat + (wireLabels labels).length) =
          cursor + 1 + length.toNat + (wireLabels labels).length := by omega
      rw [hidx]
      exact hends

theorem length_le_foldl_pushed : ∀ (labels : List Bytes) (bytes : Bytes),
    bytes.length ≤ (labels.foldl pushed bytes).length
  | [], _ => le_refl _
  | l :: labels, bytes => by
    have h1 := length_pushed bytes l
    have h2 := length_le_foldl_pushed labels (pushed bytes l)
    rw [foldl_cons]
    omega

theorem reads_of_labels : ∀ (labels : List Bytes) (name : Name) (cursor : ℕ), (∀ l ∈ labels, LabelOk l) →
      Stands message cursor (wireLabels labels) → mid.bytes = labels.foldl pushed name.bytes →
      Reads message mid (cursor + (wireLabels labels).length) consumed out stop →
      Reads message name cursor consumed out stop := by
  intro labels
  induction labels with
  | nil =>
    intro name cursor _ _ hmid h
    have : mid = name := Name.ext_bytes hmid
    rw [← this]
    simpa using h
  | cons l labels ih =>
    intro name cursor hok hst hmid h
    have hl := hok l mem_cons_self
    obtain ⟨hbyte, hlabel, hrest⟩ := stands_wireLabels_cons.mp hst
    obtain ⟨h0, h64, hnat⟩ := lengthByte_spec hl
    have hslice : slice message (cursor + 1) (ofNat l.length).toNat = l := by
      rw [hnat]
      exact hlabel.slice_eq
    have hfits : cursor + 1 + (ofNat l.length).toNat ≤ message.length := by
      rw [hnat]
      exact hlabel.le_length hl.ne_nil
    have hlen : (pushed name.bytes (slice message (cursor + 1) (ofNat l.length).toNat)).length ≤
        maxNameChars := by
      rw [hslice]
      refine le_trans ?_ mid.short
      rw [hmid]
      exact length_le_foldl_pushed labels _
    refine .label hbyte h0 h64 hfits (by rw [hslice]; exact hl.no_dot) hlen ?_
    refine ih _ _ (fun m hm => hok m (mem_cons_of_mem _ hm)) ?_ ?_ ?_
    · rw [hnat]
      exact hrest
    · rw [hmid]
      simp only [Name.push, hslice, foldl_cons]
    · rw [hnat]
      rw [length_wireLabels_cons] at h
      have hidx : cursor + 1 + l.length + (wireLabels labels).length =
          cursor + (1 + l.length + (wireLabels labels).length) := by omega
      rw [hidx]
      exact h

/-! ### Names without compression -/

theorem foldl_pushed_joinLabels : ∀ (ls labels : List Bytes), (∀ l ∈ labels, LabelOk l) → (∀ l ∈ ls, LabelOk l) →
    ls.foldl pushed (joinLabels labels) = joinLabels (labels ++ ls.map (map lower))
  | [], labels, _, _ => by simp
  | l :: ls, labels, hlab, hls => by
    have hl := hls l mem_cons_self
    rw [foldl_cons, pushed_joinLabels hlab, foldl_pushed_joinLabels ls]
    · simp
    · intro m hm
      rcases mem_append.mp hm with hm | hm
      · exact hlab m hm
      · rw [mem_singleton.mp hm]
        exact labelOk_lower hl
    · exact fun m hm => hls m (mem_cons_of_mem _ hm)

theorem foldl_pushed_nil (h : ∀ l ∈ ls, LabelOk l) : ls.foldl pushed [] = joinLabels (ls.map (map lower)) :=
  foldl_pushed_joinLabels ls [] (by simp) h

def Name.labels : List Bytes := if n.bytes = [] then [] else n.bytes.splitOn dot

theorem Name.labels_eq {n : Name} {labels : List Bytes} (hok : ∀ l ∈ labels, LabelOk l)
    (h : n.bytes = joinLabels labels) : n.labels = labels := by
  unfold Name.labels
  by_cases hnil : labels = []
  · subst hnil
    simp [h, joinLabels]
  have hne : n.bytes ≠ [] := by
    rw [h]
    exact joinLabels_ne_nil hnil hok
  rw [if_neg hne, h]
  exact splitOn_intercalate dot (fun l hl => (hok l hl).no_dot) hnil

theorem Name.labels_spec : (∀ l ∈ n.labels, LabelOk l) ∧ n.labels.map (map lower) = n.labels ∧
    n.bytes = joinLabels n.labels := by
  obtain ⟨labels, hok, hbytes⟩ := n.normal
  have heq := Name.labels_eq (fun l hl => (hok l hl).1) hbytes
  rw [heq]
  refine ⟨fun l hl => (hok l hl).1, ?_, hbytes⟩
  calc labels.map (map lower) = labels.map id := map_congr_left (fun l hl => (hok l hl).2)
    _ = labels := map_id labels

theorem Name.labels_of_foldl {n : Name} (h : ∀ l ∈ ls, LabelOk l)
    (hn : n.bytes = ls.foldl pushed []) : n.labels = ls.map (map lower) := by
  rw [foldl_pushed_nil h] at hn
  refine Name.labels_eq (fun l hl => ?_) hn
  obtain ⟨m, hm, rfl⟩ := mem_map.mp hl
  exact labelOk_lower (h m hm)

theorem Name.foldl_labels : n.bytes = n.labels.foldl pushed [] := by
  obtain ⟨hok, hlower, hbytes⟩ := n.labels_spec
  rw [foldl_pushed_nil hok, hlower]
  exact hbytes

theorem foldl_pushed_lower (labels : List Bytes) (h : ∀ l ∈ labels, LabelOk l) :
    (labels.map (map lower)).foldl pushed [] = labels.foldl pushed [] := by
  rw [foldl_pushed_nil h, foldl_pushed_nil]
  · congr 1
    simp [lower_lower]
  · intro l hl
    obtain ⟨m, hm, rfl⟩ := mem_map.mp hl
    exact labelOk_lower (h m hm)

def Name.wire : Bytes := wireLabels n.labels ++ [0]

theorem reads_wire (consumed : Option ℕ)
    (hok : ∀ l ∈ labels, LabelOk l) (hst : Stands message cursor (wireLabels labels ++ [0]))
    (hout : out.bytes = labels.foldl pushed name.bytes) :
    Reads message name cursor consumed out (consumed.getD (cursor + (wireLabels labels).length + 1)) := by
  rw [stands_append, stands_cons] at hst
  exact reads_of_labels labels name cursor hok hst.1 hout (.stop hst.2.1)

theorem read_wire (h : Stands message cursor name.wire) :
    Name.read message cursor = .ok (name, name.wire.length) := by
  have hreads : Reads message Name.root cursor none name (cursor + (wireLabels name.labels).length + 1) :=
    reads_wire none name.labels_spec.1 h name.foldl_labels
  rw [read_eq_of_reads hreads]
  simp only [Name.wire, length_append, length_singleton]
  congr 2
  omega

def wireLenOf (bytes : Bytes) : ℕ := if bytes = [] then 1 else bytes.length + 2

theorem wireLenOf_foldl_pushed : ∀ (labels : List Bytes) (bytes : Bytes), (∀ l ∈ labels, LabelOk l) →
    wireLenOf (labels.foldl pushed bytes) = wireLenOf bytes + (wireLabels labels).length
  | [], _, _ => rfl
  | l :: labels, bytes, h => by
    have hl := (h l mem_cons_self).ne_nil
    have hpos := length_pos_iff.mpr hl
    have hone : wireLenOf (pushed bytes l) = wireLenOf bytes + (1 + l.length) := by
      have hlen := length_pushed bytes l
      have hne : pushed bytes l ≠ [] := fun hnil => by
        rw [hnil] at hlen
        simp at hlen
        omega
      unfold wireLenOf
      rw [if_neg hne, hlen]
      split_ifs with hb
      · subst hb
        simp
        omega
      · omega
    rw [foldl_cons, wireLenOf_foldl_pushed labels _ (fun m hm => h m (mem_cons_of_mem _ hm)), hone,
      length_wireLabels_cons]
    omega

theorem Reads.stop_eq (h : Reads message name cursor consumed out stop) : ∀ c, consumed = some c → stop = c := by
  induction h with
  | stop h => rintro c rfl; rfl
  | label h h0 h64 hfits hdot hlen next ih => exact ih
  | pointer h h192 hlow hback next ih => rintro c rfl; exact ih c rfl

theorem Reads.wireLenOf_le (h : Reads message name cursor consumed out stop) :
    out = name ∨ wireLenOf name.bytes + 2 ≤ wireLenOf out.bytes := by
  induction h with
  | stop h => exact .inl rfl
  | pointer h h192 hlow hback next ih => exact ih
  | @label name out cursor stop consumed length h h0 h64 hfits hdot hlen next ih =>
    have hl := labelOk_slice h0 h64 hfits hdot
    have hpos := length_pos_iff.mpr hl.ne_nil
    have hw := wireLenOf_foldl_pushed [slice message (cursor + 1) length.toNat] name.bytes
      (fun l hm => by rw [mem_singleton.mp hm]; exact hl)
    rw [length_wireLabels_cons] at hw
    have hpush : wireLenOf name.bytes + 2 ≤ wireLenOf (name.push _ hl hlen).bytes := by
      have hbytes : (name.push _ hl hlen).bytes = [slice message (cursor + 1) length.toNat].foldl pushed name.bytes :=
        rfl
      rw [hbytes]
      omega
    refine .inr ?_
    rcases ih with rfl | ih
    · exact hpush
    · omega

/-- **Compression is detected**: a name that takes as many bytes in its place as its wire form has stands there
without a pointer. -/
theorem stands_of_read_wireLen (h : Name.read message cursor = .ok (name, name.wireLen)) :
    ∃ labels : List Bytes, (∀ l ∈ labels, LabelOk l) ∧ name.labels = labels.map (map lower) ∧
      Stands message cursor (wireLabels labels ++ [0]) ∧ name.wireLen = (wireLabels labels).length + 1 := by
  obtain ⟨stop, hreads, hlen⟩ := reads_of_read_eq h
  have hwl : name.wireLen = wireLenOf name.bytes := rfl
  obtain ⟨labels, mid, hok, hst, hmid, hends⟩ := hreads.inline
  have hmidlen := wireLenOf_foldl_pushed labels [] hok
  have hmidlen' : wireLenOf mid.bytes = 1 + (wireLabels labels).length := by rw [hmid]; exact hmidlen
  rcases hends with ⟨hzero, rfl, hstop⟩ | ⟨high, low, -, -, -, -, hnext⟩
  · refine ⟨labels, hok, Name.labels_of_foldl hok hmid, ?_, by omega⟩
    rw [stands_append, stands_cons]
    exact ⟨hst, hzero, stands_nil⟩
  · -- A pointer takes two bytes; what it adds to the name is nothing or more than one byte.
    have hstop := hnext.stop_eq _ rfl
    simp only [Option.getD_none] at hstop
    rcases hnext.wireLenOf_le with rfl | hle <;> omega

end Boreas.Dns
