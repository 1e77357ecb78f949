import Boreas.AltSvc
import Boreas.Exchange

/-! # Fields taken out of a message

`strip_hop_by_hop` should take out the hop-by-hop fields and those that a `Connection` value names, and `steer_response`
the alternatives of `Alt-Svc` for HTTP/3, and neither anything else.  Both read the values that are visible ASCII only.
`stripped_iff` and `steered_iff` say for which field maps they are exact: what an opaque value says is not read, but
lost where the field is written anew. -/

namespace Boreas.Intercept

open List hiding all cons next nil tail
open Http
open HeaderName (connection fromBytes upgrade)

/-! ### Hop-by-hop fields -/

def namedBy (value : Bytes) : List HeaderName := ((value.splitOn 44).map trim).filterMap fromBytes

variable (headers : HeaderMap)

/-- A field of one hop: of the list, or named by a `Connection` value.  An upgrade keeps its two fields. -/
def HopByHop (handling : Handling) (name : HeaderName) : Prop :=
  if name = .connection ∨ name = .upgrade then handling = .ordinary
  else name.bytes ∈ hopByHop ∨ ∃ value ∈ headers.getAll .connection, name ∈ namedBy value

/-- Exactly the fields of one hop are gone; the others have all their values, in order. -/
structure Stripped (headers kept : HeaderMap) (handling : Handling) : Prop where
  sublist : kept.fields.Sublist headers.fields
  kept : ∀ field ∈ headers.fields, field ∈ kept.fields ↔ ¬ HopByHop headers handling field.1

theorem bytes_of_fromBytes (h : fromBytes token = some name) : name.bytes = token.map lower := by
  unfold fromBytes at h
  split_ifs at h
  cases h
  rfl

theorem eq_of_bytes : ∀ {a b : HeaderName}, a.bytes = b.bytes → a = b
  | ⟨_, _, _⟩, ⟨_, _, _⟩, rfl => rfl

theorem mem_nominated {headers : HeaderMap} {handling : Handling} :
    name ∈ nominated headers handling ↔ (handling = .ordinary ∨ name ≠ .upgrade) ∧
      ∃ value ∈ headers.getAll .connection, toStr value ≠ none ∧ name ∈ namedBy value := by
  have hupg : ∀ {token : Bytes}, fromBytes token = some name →
      (eqIgnoreAsciiCase token (ascii "upgrade") = true ↔ name = .upgrade) := by
    intro token htoken
    have hlower : (ascii "upgrade").map lower = upgrade.bytes := by decide
    rw [eqIgnoreAsciiCase, beq_iff_eq, ← bytes_of_fromBytes htoken, hlower]
    exact ⟨eq_of_bytes, congrArg _⟩
  simp only [nominated, connectionTokens, namedBy, mem_filterMap, mem_filter, mem_flatMap, Bool.or_eq_true,
    decide_eq_true_eq, Bool.not_eq_true', toStr]
  constructor
  · rintro ⟨token, ⟨⟨text, ⟨value, hvalue, htext⟩, hmem⟩, hkept⟩, htoken⟩
    split_ifs at htext with hvis
    cases htext
    refine ⟨hkept.imp_right fun hne heq => ?_, text, hvalue, by rw [if_pos hvis]; nofun, token, hmem, htoken⟩
    rw [(hupg htoken).mpr heq] at hne
    cases hne
  · rintro ⟨hkept, value, hvalue, hvis, token, hmem, htoken⟩
    refine ⟨token, ⟨⟨value, ⟨value, hvalue, ?_⟩, hmem⟩, hkept.imp_right fun hne => ?_⟩, htoken⟩
    · split_ifs at hvis ⊢
      · rfl
      · exact absurd rfl hvis
    · exact Bool.eq_false_of_not_eq_true fun h => hne ((hupg htoken).mp h)

/-- **Stripping is exact** exactly when each field of the map that an opaque `Connection` value names goes for another
reason or stays for an upgrade, and no upgrade has a readable value that names `Connection`. -/
theorem stripped_iff (headers : HeaderMap) (handling : Handling) :
    Stripped headers (stripHopByHop headers handling) handling ↔
      (∀ value ∈ headers.getAll .connection, toStr value = none → ∀ name ∈ namedBy value, name ∈ headers.keys →
        name = .connection ∨ name = .upgrade ∨ name.bytes ∈ hopByHop ∨
          ∃ other ∈ headers.getAll .connection, toStr other ≠ none ∧ name ∈ namedBy other) ∧
      (handling = .upgrade → ∀ value ∈ headers.getAll .connection, toStr value ≠ none → .connection ∉ namedBy value) := by
  have hfld := fields_stripHopByHop headers handling
  have hdisc : ∀ name, discards headers handling name = true ↔ name.bytes ∈ hopByHop ∨
      (handling = .ordinary ∧ (name = .connection ∨ name = .upgrade)) ∨ name ∈ nominated headers handling := by
    simp [discards, or_assoc]
  have hlist : connection.bytes ∉ hopByHop ∧ upgrade.bytes ∉ hopByHop := by decide
  have hne : connection ≠ .upgrade := by decide
  have hhandling : handling = .ordinary ∨ handling = .upgrade := by cases handling <;> simp
  -- field by field
  have hpoint : Stripped headers (stripHopByHop headers handling) handling ↔
      ∀ name ∈ headers.keys, discards headers handling name = true ↔ HopByHop headers handling name := by
    constructor
    · intro h name hname
      obtain ⟨field, hfield, rfl⟩ := mem_map.mp hname
      have hkept := h.kept field hfield
      rw [hfld] at hkept
      simpa [hfield] using not_congr hkept
    · intro h
      refine ⟨hfld ▸ filter_sublist, fun field hfield => ?_⟩
      rw [hfld, ← h field.1 (mem_map_of_mem hfield)]
      simp [hfield]
  have hkey : ∀ value ∈ headers.getAll .connection, connection ∈ headers.keys := by
    intro value hvalue
    exact mem_map_of_mem (HeaderMap.mem_fields_iff.mpr ⟨ne_nil_of_mem hvalue, rfl⟩)
  rw [hpoint]
  simp only [hdisc, mem_nominated]
  constructor
  · intro h
    refine ⟨fun value hvalue _ name hname hmem => ?_, fun hup value hvalue hvis hnames => ?_⟩
    · by_cases htwo : name = .connection ∨ name = .upgrade
      · exact htwo.imp_right .inl
      have hhop : HopByHop headers handling name := by
        rw [HopByHop, if_neg htwo]
        exact .inr ⟨value, hvalue, hname⟩
      obtain hin | ⟨-, htwo'⟩ | ⟨-, hnamed⟩ := (h name hmem).mpr hhop
      · exact .inr (.inr (.inl hin))
      · exact absurd htwo' htwo
      · exact .inr (.inr (.inr hnamed))
    · have hhop := (h .connection (hkey value hvalue)).mp (.inr (.inr ⟨.inr hne, value, hvalue, hvis, hnames⟩))
      rw [hup] at hhop
      cases hhop
  · rintro ⟨hunr, hupg⟩ name hname
    rw [HopByHop]
    split_ifs with htwo
    · refine ⟨?_, fun hord => .inr (.inl ⟨hord, htwo⟩)⟩
      rintro (hin | ⟨hord, -⟩ | ⟨hkept, value, hvalue, hvis, hnames⟩)
      · obtain rfl | rfl := htwo
        · exact absurd hin hlist.1
        · exact absurd hin hlist.2
      · exact hord
      · refine hhandling.resolve_right fun hup => ?_
        obtain rfl | rfl := htwo
        · exact hupg hup value hvalue hvis hnames
        · exact (hup ▸ hkept).elim nofun fun hne' => hne' rfl
    · constructor
      · rintro (hin | ⟨-, htwo'⟩ | ⟨-, value, hvalue, -, hnames⟩)
        · exact .inl hin
        · exact absurd htwo' htwo
        · exact .inr ⟨value, hvalue, hnames⟩
      · rintro (hin | ⟨value, hvalue, hnames⟩)
        · exact .inl hin
        · have hne' : name ≠ .upgrade := fun heq => htwo (.inr heq)
          by_cases hvis : toStr value = none
          · obtain heq | heq | hin | hnamed := hunr value hvalue hvis name hnames hname
            · exact absurd (.inl heq) htwo
            · exact absurd heq hne'
            · exact .inl hin
            · exact .inr (.inr ⟨.inr hne', hnamed⟩)
          · exact .inr (.inr ⟨.inr hne', value, hvalue, hvis, hnames⟩)

def xHop : HeaderName := ⟨ascii "x-hop", by decide, by decide⟩

/-- `Connection: x-hop,` and a byte that is not ASCII, and the field it names. -/
def opaqueHop : HeaderMap := (HeaderMap.empty.append .connection (ascii "x-hop," ++ [255])).append xHop (ascii "1")

/-- The value is not read, and the field it names stays. -/
theorem opaque_nomination_kept : xHop ∈ namedBy (ascii "x-hop," ++ [255]) ∧
    (stripHopByHop opaqueHop .ordinary).getAll xHop = [ascii "1"] ∧
      ¬ Stripped opaqueHop (stripHopByHop opaqueHop .ordinary) .ordinary := by
  refine ⟨by decide, by decide, fun h => ?_⟩
  refine (h.kept (xHop, [ascii "1"]) (by decide)).mp (by decide) ?_
  exact .inr ⟨ascii "x-hop," ++ [255], by decide, by decide⟩

/-! ### Alternatives -/

/-- The splitter's state after some bytes: within a quoted string, and after a backslash there. -/
def scan : Bool → Bool → Bytes → Bool × Bool
  | quoted, escaped, [] => (quoted, escaped)
  | quoted, true, _ :: rest => scan quoted false rest
  | quoted, false, b :: rest =>
    if b = 92 ∧ quoted then scan quoted true rest
    else if b = 34 then scan (!quoted) false rest
    else scan quoted false rest

def Closed (alternative : Bytes) : Prop := (scan false false alternative).1 = false

theorem scan_of_closed : ∀ (xs : Bytes) {quoted escaped : Bool}, (escaped = true → quoted = true) →
    (scan quoted escaped xs).1 = false → scan quoted escaped xs = (false, false)
  | [], quoted, escaped, h, hcl => by
    cases quoted <;> cases escaped <;> simp_all [scan]
  | b :: xs, quoted, true, h, hcl => scan_of_closed xs nofun hcl
  | b :: xs, quoted, false, h, hcl => by
    unfold scan at hcl ⊢
    split_ifs at hcl ⊢ with hslash hquote
    · exact scan_of_closed xs (fun _ => hslash.2) hcl
    · exact scan_of_closed xs nofun hcl
    · exact scan_of_closed xs nofun hcl

theorem scan_cons :
    scan quoted escaped (b :: xs) = scan (scan quoted escaped [b]).1 (scan quoted escaped [b]).2 xs := by
  cases escaped
  · simp only [scan]
    split_ifs <;> rfl
  · rfl

theorem splitUnquoted_cons : splitUnquoted quoted escaped (b :: xs) =
    if b = 44 ∧ quoted = false ∧ escaped = false then [] :: splitUnquoted false false xs
    else (splitUnquoted (scan quoted escaped [b]).1 (scan quoted escaped [b]).2 xs).modifyHead (b :: ·) := by
  cases escaped
  · by_cases hcomma : b = 44
    · subst hcomma
      cases quoted <;> simp [splitUnquoted, scan]
    · simp only [splitUnquoted, scan]
      split_ifs <;> simp_all
  · simp [splitUnquoted, scan]

theorem modifyHead_cons_eq : pieces.modifyHead (b :: ·) = [b :: xs] ↔ pieces = [xs] := by
  cases pieces <;> simp

theorem splitUnquoted_append (rest : Bytes) : ∀ {xs : Bytes} {quoted escaped : Bool},
    splitUnquoted quoted escaped xs = [xs] → splitUnquoted quoted escaped (xs ++ rest) =
      (splitUnquoted (scan quoted escaped xs).1 (scan quoted escaped xs).2 rest).modifyHead (xs ++ ·)
  | [], quoted, escaped, _ => by
    cases h : splitUnquoted quoted escaped rest <;> simp [scan, h]
  | b :: xs, quoted, escaped, h => by
    rw [splitUnquoted_cons] at h
    split_ifs at h with hcomma
    · cases h
    · rw [cons_append, splitUnquoted_cons, if_neg hcomma, splitUnquoted_append rest (modifyHead_cons_eq.mp h),
        modifyHead_modifyHead, ← scan_cons]
      rfl

theorem splitUnquoted_of_append : ∀ {xs : Bytes} {quoted escaped : Bool},
    splitUnquoted quoted escaped (xs ++ ys) = [xs ++ ys] → splitUnquoted quoted escaped xs = [xs]
  | [], _, _, _ => by simp [splitUnquoted]
  | b :: xs, quoted, escaped, h => by
    rw [cons_append, splitUnquoted_cons] at h
    rw [splitUnquoted_cons]
    split_ifs at h ⊢
    · cases h
    · rw [modifyHead_cons_eq] at h ⊢
      exact splitUnquoted_of_append h

theorem splitUnquoted_pieces : ∀ (xs : Bytes) (quoted escaped : Bool), ∃ first rest,
    splitUnquoted quoted escaped xs = first :: rest ∧ splitUnquoted quoted escaped first = [first] ∧
      ∀ piece ∈ rest, splitUnquoted false false piece = [piece]
  | [], _, _ => ⟨[], [], by simp [splitUnquoted]⟩
  | b :: xs, quoted, escaped => by
    rw [splitUnquoted_cons]
    split_ifs with hcomma
    · obtain ⟨first, rest, heq, hfirst, hrest⟩ := splitUnquoted_pieces xs false false
      refine ⟨[], first :: rest, by rw [heq], by simp [splitUnquoted], ?_⟩
      exact forall_mem_cons.mpr ⟨hfirst, hrest⟩
    obtain ⟨first, rest, heq, hfirst, hrest⟩ := splitUnquoted_pieces xs (scan quoted escaped [b]).1
      (scan quoted escaped [b]).2
    refine ⟨b :: first, rest, by rw [heq]; rfl, ?_, hrest⟩
    rw [splitUnquoted_cons, if_neg hcomma, hfirst]
    rfl

theorem splitUnquoted_trim (h : splitUnquoted false false xs = [xs]) :
    splitUnquoted false false (trim xs) = [trim xs] := by
  have hdrop : splitUnquoted false false (xs.dropWhile isBlank) = [xs.dropWhile isBlank] := by
    induction xs with
    | nil => exact h
    | cons b xs ih =>
      rw [dropWhile_cons]
      split_ifs with hblank
      · obtain rfl | rfl : b = 9 ∨ b = 32 := by simpa [isBlank] using hblank
        · exact ih (modifyHead_cons_eq.mp h)
        · exact ih (modifyHead_cons_eq.mp h)
      · exact h
  obtain ⟨blanks, heq⟩ := rdropWhile_prefix isBlank (l := xs.dropWhile isBlank)
  rw [← heq] at hdrop
  exact splitUnquoted_of_append hdrop

structure IsAlternative (alternative : Bytes) : Prop where
  ne_nil : alternative ≠ []
  trimmed : Words.Trimmed isBlank alternative
  whole : splitUnquoted false false alternative = [alternative]

theorem isAlternative_of_mem (h : alternative ∈ altValues value) : IsAlternative alternative := by
  obtain ⟨hmem, hne⟩ := mem_filter.mp h
  obtain ⟨piece, hpiece, rfl⟩ := mem_map.mp hmem
  refine ⟨of_decide_eq_true hne, Words.trimmed_trim isBlank piece, splitUnquoted_trim ?_⟩
  obtain ⟨first, rest, heq, hfirst, hrest⟩ := splitUnquoted_pieces value false false
  rw [heq] at hpiece
  obtain rfl | hpiece := mem_cons.mp hpiece
  · exact hfirst
  · exact hrest piece hpiece

theorem altValues_of_closed (h : IsAlternative first) (hcl : Closed first) :
    altValues (first ++ 44 :: 32 :: rest) = first :: altValues rest := by
  have htrim : trim first = first := h.trimmed.trim_eq
  have hscan : scan false false first = (false, false) := scan_of_closed first nofun hcl
  unfold altValues
  rw [splitUnquoted_append _ h.whole, hscan, splitUnquoted_cons,
    splitUnquoted_cons]
  obtain ⟨next, more, heq, -⟩ := splitUnquoted_pieces rest false false
  have hblank : trim (32 :: next) = trim next := Words.trim_cons rfl next
  simp [scan, heq, htrim, h.ne_nil, hblank]

theorem trim_append (hne : first ≠ []) (h : Words.Trimmed isBlank first) (next : Bytes) :
    ∃ rest, trim (first ++ 44 :: next) = first ++ 44 :: rest := by
  have hcomma : Words.Trimmed isBlank [44] := ⟨by simp [isBlank], by simp [isBlank]⟩
  induction next using reverseRecOn with
  | nil =>
    have htrim := h.append [] hcomma hne (cons_ne_nil 44 [])
    rw [append_nil] at htrim
    exact ⟨[], htrim.trim_eq⟩
  | append_singleton next b ih =>
    rw [← cons_append, ← append_assoc]
    by_cases hb : isBlank b = true
    · rw [show trim _ = _ from Words.trim_snoc hb _]
      exact ih
    · have hlast : Words.Trimmed isBlank [b] := ⟨by simpa using hb, by simpa using hb⟩
      have htrim := h.append (44 :: next) hlast hne (cons_ne_nil b [])
      exact ⟨next ++ [b], htrim.trim_eq.trans (by simp)⟩

theorem altValues_of_not_closed (h : IsAlternative first) (hopen : ¬ Closed first) :
    altValues (first ++ 44 :: rest) ≠ first :: more := by
  have hquo : (scan false false first).1 = true := Bool.eq_true_of_not_eq_false hopen
  unfold altValues
  rw [splitUnquoted_append _ h.whole, splitUnquoted_cons, if_neg (by simp [hquo])]
  obtain ⟨next, others, heq, -⟩ := splitUnquoted_pieces rest (scan (scan false false first).1
    (scan false false first).2 [44]).1 (scan (scan false false first).1 (scan false false first).2 [44]).2
  obtain ⟨tail, htail⟩ := trim_append h.ne_nil h.trimmed next
  simp [heq, htail]

theorem intercalate_cons : intercalate (ascii ", ") (a :: b :: rest) =
    a ++ 44 :: 32 :: intercalate (ascii ", ") (b :: rest) := by
  rfl

/-- **Joined alternatives read back** exactly when all but the last end outside a quoted string. -/
theorem altValues_join : ∀ {kept : List Bytes}, (∀ a ∈ kept, IsAlternative a) →
    (altValues (intercalate (ascii ", ") kept) = kept ↔ ∀ a ∈ kept.dropLast, Closed a)
  | [], _ => by simp [altValues, splitUnquoted, trim, Words.trim]
  | [a], h => by
    have ha := h a mem_cons_self
    have htrim : trim a = a := ha.trimmed.trim_eq
    simp [altValues, ha.whole, htrim, ha.ne_nil]
  | a :: b :: kept, h => by
    have ha := h a mem_cons_self
    rw [intercalate_cons, dropLast_cons_cons, forall_mem_cons]
    by_cases hcl : Closed a
    · have ih := altValues_join fun c hc => h c (mem_cons_of_mem a hc)
      rw [altValues_of_closed ha hcl, cons_inj_right, ih]
      exact (and_iff_right hcl).symm
    · exact iff_of_false (altValues_of_not_closed ha hcl) fun hall => hcl hall.1

theorem not_clear_join : ∀ {kept : List Bytes}, (∀ a ∈ kept, IsAlternative a) → kept ≠ [] →
    (∀ a, kept = [a] → eqIgnoreAsciiCase a (ascii "clear") = false) →
      ¬ eqIgnoreAsciiCase (trim (intercalate (ascii ", ") kept)) (ascii "clear") = true
  | [], _, hne, _ => absurd rfl hne
  | [a], h, _, hclear => by
    have htrim : trim a = a := (h a mem_cons_self).trimmed.trim_eq
    simp [htrim, hclear a rfl]
  | a :: b :: kept, h, _, _ => by
    -- the comma is not trimmed away
    have ha := h a mem_cons_self
    obtain ⟨rest, hrest⟩ := trim_append ha.ne_nil ha.trimmed (32 :: intercalate (ascii ", ") (b :: kept))
    rw [intercalate_cons, hrest, eqIgnoreAsciiCase, beq_iff_eq]
    intro hclear
    have hcomma : (44 : UInt8) ∈ (ascii "clear").map lower := by
      rw [← hclear]
      exact mem_map.mpr ⟨44, by simp, by decide⟩
    exact absurd hcomma (by decide)

/-! ### Steering -/

def advertised : List Bytes := alternatives (headers.getAll .altSvc)

def survivors : List Bytes := (advertised headers).filter (!advertisesH3 ·)

/-- The alternatives for HTTP/3 are gone and the others, joined, are what a client reads; without any the field says
`clear`, and a map that advertised none is as it was. -/
structure Steered (headers steered : HeaderMap) : Prop where
  same : (∀ a ∈ advertised headers, advertisesH3 a = false) → steered = headers
  joined : (∃ a ∈ advertised headers, advertisesH3 a = true) → steered.getAll .altSvc =
    [if survivors headers = [] then ascii "clear" else intercalate (ascii ", ") (survivors headers)]
  read : advertised steered = survivors headers
  others : ∀ name ≠ .altSvc, steered.getAll name = headers.getAll name
  again : steerResponse steered = steered

def readOnes : List Bytes := alternatives ((headers.getAll .altSvc).filterMap toStr)

def unreadOnes : List Bytes :=
  alternatives ((headers.getAll .altSvc).filter fun value => toStr value = none)

def keptOnes : List Bytes := (readOnes headers).filter (!advertisesH3 ·)

theorem advertised_perm : (advertised headers).Perm (readOnes headers ++ unreadOnes headers) := by
  unfold advertised readOnes unreadOnes
  induction headers.getAll .altSvc with
  | nil => exact .refl _
  | cons value vs ih =>
    rcases htext : toStr value with _ | text
    · rw [filterMap_cons_none htext, filter_cons_of_pos (by simpa using htext)]
      exact (ih.append_left _).trans (perm_append_comm_assoc ..)
    rw [filterMap_cons_some htext, toStr_eq_some htext, filter_cons_of_neg (by simp [htext])]
    exact (ih.append_left _).trans (.of_eq (append_assoc ..).symm)

theorem mem_advertised {headers : HeaderMap} :
    a ∈ advertised headers ↔ a ∈ readOnes headers ∨ a ∈ unreadOnes headers := by
  rw [(advertised_perm headers).mem_iff, mem_append]

theorem keptOnes_sublist : (keptOnes headers).Sublist (survivors headers) := by
  refine List.Sublist.filter _ ?_
  unfold readOnes advertised
  induction headers.getAll .altSvc with
  | nil => exact List.Sublist.refl _
  | cons value vs ih =>
    rcases htext : toStr value with _ | text
    · rw [filterMap_cons_none htext]
      exact ih.trans (sublist_append_right _ _)
    rw [filterMap_cons_some htext, toStr_eq_some htext]
    exact (List.Sublist.refl _).append ih

theorem keptOnes_eq_iff : keptOnes headers = survivors headers ↔ ∀ a ∈ unreadOnes headers, advertisesH3 a = true := by
  have hlen := ((advertised_perm headers).filter (!advertisesH3 ·)).length_eq
  rw [filter_append, length_append] at hlen
  have hnone : ((unreadOnes headers).filter (!advertisesH3 ·)).length = 0 ↔
      ∀ a ∈ unreadOnes headers, advertisesH3 a = true := by
    simp
  rw [← hnone]
  constructor
  · intro h
    have hsame := congrArg length h
    unfold survivors keptOnes at hsame
    omega
  · intro h
    refine (keptOnes_sublist headers).eq_of_length_le ?_
    unfold survivors keptOnes
    omega

theorem eq_of_join {kept : List Bytes} (h : kept.Sublist all) (hne : kept ≠ [])
    (hjoin : intercalate (ascii ", ") kept = intercalate (ascii ", ") all) : kept = all := by
  have hlen : ∀ {l : List Bytes}, l ≠ [] →
      (intercalate (ascii ", ") l).length + 2 = (l.map (·.length + 2)).sum := by
    intro l hl
    induction l with
    | nil => exact absurd rfl hl
    | cons first rest ih =>
      rcases rest with _ | ⟨next, rest⟩
      · simp
      rw [map_cons, sum_cons,
        ← ih (cons_ne_nil next rest)]
      simp [ascii]
      omega
  have hsum : (kept.map (·.length + 2)).sum + 2 * (all.length - kept.length) ≤ (all.map (·.length + 2)).sum := by
    clear hne hjoin
    induction h with
    | slnil => simp
    | cons a h ih | cons_cons a h ih =>
      simp only [map_cons, sum_cons, length_cons]
      omega
  have hall : all ≠ [] := fun hnil => hne (sublist_nil.mp (hnil ▸ h))
  have hsame := congrArg length hjoin
  have hkept := hlen hne
  have hlast := hlen hall
  refine h.eq_of_length_le ?_
  omega

theorem mem_of_mem_splitUnquoted : ∀ {xs : Bytes} {quoted escaped : Bool} {piece : Bytes},
    piece ∈ splitUnquoted quoted escaped xs → b ∈ piece → b ∈ xs
  | [], _, _, piece, h, hb => by
    rw [splitUnquoted, mem_singleton] at h
    exact h ▸ hb
  | x :: xs, quoted, escaped, piece, h, hb => by
    rw [splitUnquoted_cons] at h
    split_ifs at h
    · obtain rfl | h := mem_cons.mp h
      · cases hb
      · exact mem_cons_of_mem x (mem_of_mem_splitUnquoted h hb)
    obtain ⟨first, rest, heq, -⟩ := splitUnquoted_pieces xs (scan quoted escaped [x]).1 (scan quoted escaped [x]).2
    have hmem : ∀ {p}, p ∈ first :: rest → b ∈ p → b ∈ xs := fun hp => mem_of_mem_splitUnquoted (heq ▸ hp)
    rw [heq, modifyHead_cons] at h
    obtain rfl | h := mem_cons.mp h
    · exact (mem_cons.mp hb).elim (fun hx => hx ▸ mem_cons_self) fun hb =>
        mem_cons_of_mem x (hmem mem_cons_self hb)
    · exact mem_cons_of_mem x (hmem (mem_cons_of_mem _ h) hb)

theorem isAlternative_of_readOnes {headers : HeaderMap} (h : a ∈ readOnes headers) :
    IsAlternative a ∧ ∀ b ∈ a, isVisibleAscii b = true := by
  obtain ⟨text, htext, ha⟩ := mem_flatMap.mp h
  obtain ⟨value, -, hvalue⟩ := mem_filterMap.mp htext
  split_ifs at ha
  · cases ha
  refine ⟨isAlternative_of_mem ha, fun b hb => ?_⟩
  unfold toStr at hvalue
  split_ifs at hvalue with hvis
  cases hvalue
  obtain ⟨piece, hpiece, rfl⟩ := mem_map.mp (mem_of_mem_filter ha)
  exact all_eq_true.mp hvis b (mem_of_mem_splitUnquoted hpiece (Words.mem_of_mem_trim hb))

theorem steerAltSvc_eq : steerAltSvc ((headers.getAll .altSvc).filterMap toStr) =
    if !(readOnes headers).any advertisesH3 then .untouched else if keptOnes headers = [] then .cleared
    else .narrowed (intercalate (ascii ", ") (keptOnes headers)) := rfl

theorem getAll_steerResponse {headers : HeaderMap} (h : (readOnes headers).any advertisesH3 = true) :
    (steerResponse headers).getAll .altSvc =
      [if keptOnes headers = [] then ascii "clear" else intercalate (ascii ", ") (keptOnes headers)] := by
  have hencoded : headerValue (intercalate (ascii ", ") (keptOnes headers)) =
      some (intercalate (ascii ", ") (keptOnes headers)) := by
    refine if_pos (all_eq_true.mpr ?_)
    refine Words.forall_mem_intercalate (by simp [ascii]) fun a ha b hb => ?_
    have hvis := (isAlternative_of_readOnes (mem_of_mem_filter ha)).2 b hb
    simp only [isVisibleAscii, Bool.or_eq_true, Bool.and_eq_true, bne_iff_ne] at hvis ⊢
    exact hvis.imp_left fun hb => ⟨hb.1, fun heq => absurd (heq ▸ hb.2) (by decide)⟩
  unfold steerResponse
  rw [steerAltSvc_eq, h]
  by_cases hkept : keptOnes headers = []
  · simp [hkept, HeaderMap.getAll_append, HeaderMap.getAll_remove]
  · simp [hkept, HeaderMap.getAll_append, HeaderMap.getAll_remove, hencoded]

theorem steerResponse_of_none {headers : HeaderMap} (h : ∀ a ∈ readOnes headers, advertisesH3 a = false) :
    steerResponse headers = headers := by
  have hany : (readOnes headers).any advertisesH3 = false := by simpa using h
  unfold steerResponse
  rw [steerAltSvc_eq, hany]
  rfl

theorem alternatives_singleton : alternatives [value] =
    if eqIgnoreAsciiCase (trim value) (ascii "clear") then [] else altValues value := by
  simp [alternatives]

/-- **Steering is exact**: where an alternative is removed, exactly when the values that are not visible ASCII have
none to keep, those that are kept, but for the last, end outside quoted strings, and the word `clear` is not all that
is kept; otherwise, exactly when the values that are not visible ASCII have none for HTTP/3. -/
theorem steered_iff (headers : HeaderMap) : Steered headers (steerResponse headers) ↔
    if (readOnes headers).any advertisesH3 then
      (∀ a ∈ unreadOnes headers, advertisesH3 a = true) ∧ (∀ a ∈ (keptOnes headers).dropLast, Closed a) ∧
        ∀ a, keptOnes headers = [a] → eqIgnoreAsciiCase a (ascii "clear") = false
    else ∀ a ∈ unreadOnes headers, advertisesH3 a = false := by
  split_ifs with hany
  · have hvalue := getAll_steerResponse hany
    obtain ⟨h3, hread, hh3⟩ := any_eq_true.mp hany
    have hwell : ∀ a ∈ keptOnes headers, IsAlternative a := fun a ha =>
      (isAlternative_of_readOnes (mem_of_mem_filter ha)).1
    have hadv : advertised (steerResponse headers) = alternatives [if keptOnes headers = [] then ascii "clear"
        else intercalate (ascii ", ") (keptOnes headers)] := congrArg alternatives hvalue
    constructor
    · intro h
      have hjoin := h.joined ⟨h3, mem_advertised.mpr (.inl hread), hh3⟩
      have hback := hadv.symm.trans h.read
      rw [hvalue, cons.injEq] at hjoin
      by_cases hkept : keptOnes headers = []
      · -- `clear` is read as nothing, so nothing survives
        rw [if_pos hkept] at hback
        have hnone : survivors headers = [] := hback.symm.trans (by decide)
        refine ⟨fun a ha => ?_, by simp [hkept], by simp [hkept]⟩
        have hmem := filter_eq_nil_iff.mp hnone a (mem_advertised.mpr (.inr ha))
        simpa using hmem
      · have hsome : survivors headers ≠ [] := fun hnone =>
          hkept (sublist_nil.mp (hnone ▸ keptOnes_sublist headers))
        rw [if_neg hkept, if_neg hsome] at hjoin
        have hall := eq_of_join (keptOnes_sublist headers) hkept hjoin.1
        rw [← hall, alternatives_singleton] at hback
        split_ifs at hback with hclear
        · exact absurd hback.symm hkept
        refine ⟨(keptOnes_eq_iff headers).mp hall, (altValues_join hwell).mp hback, fun a hone => ?_⟩
        have htrim : trim a = a := (hwell a (hone ▸ mem_cons_self)).trimmed.trim_eq
        simpa [hone, htrim] using hclear
    · rintro ⟨hunr, hcl, hclear⟩
      have hall := (keptOnes_eq_iff headers).mpr hunr
      have hback : advertised (steerResponse headers) = survivors headers := by
        rw [hadv, ← hall]
        by_cases hkept : keptOnes headers = []
        · rw [hkept]
          decide
        · rw [if_neg hkept, alternatives_singleton, if_neg ?_]
          · exact (altValues_join hwell).mpr hcl
          · exact not_clear_join hwell hkept hclear
      refine ⟨fun hnone => absurd (hnone h3 (mem_advertised.mpr (.inl hread))) (by simp [hh3]), fun _ => ?_, hback,
        fun name hname => getAll_steerResponse_of_ne headers hname, steerResponse_of_none fun a ha => ?_⟩
      · rw [hvalue, ← hall]
      · have hmem : a ∈ survivors headers := hback ▸ mem_advertised.mpr (.inl ha)
        simpa using (mem_filter.mp hmem).2
  · have hnone : ∀ a ∈ readOnes headers, advertisesH3 a = false := by simpa using hany
    rw [steerResponse_of_none hnone]
    constructor
    · intro h a ha
      have hmem : a ∈ survivors headers := h.read ▸ mem_advertised.mpr (.inr ha)
      simpa using (mem_filter.mp hmem).2
    · intro h
      have hall : ∀ a ∈ advertised headers, advertisesH3 a = false := fun a ha =>
        (mem_advertised.mp ha).elim (hnone a) (h a)
      refine ⟨fun _ => rfl, ?_, ?_, fun _ _ => rfl, steerResponse_of_none hnone⟩
      · rintro ⟨a, ha, hh3⟩
        exact absurd (hall a ha) (by simp [hh3])
      · exact (filter_eq_self.mpr fun a ha => by simp [hall a ha]).symm

/-- A value with a byte that is not ASCII advertises HTTP/3 and is not read; another is lost with what was removed. -/
theorem opaque_values_not_steered :
    let hidden := HeaderMap.empty.append .altSvc (ascii "h3=\":443\", x=" ++ [255])
    let lost := (HeaderMap.empty.append .altSvc (ascii "h3=\":443\"")).append .altSvc (ascii "h2=\":1\", x=" ++ [255])
    steerResponse hidden = hidden ∧ ¬ Steered hidden (steerResponse hidden) ∧
      (steerResponse lost).getAll .altSvc = [ascii "clear"] ∧ ¬ Steered lost (steerResponse lost) := by
  refine ⟨rfl, fun h => ?_, by decide, fun h => ?_⟩
  · have hread := h.read
    revert hread
    decide
  · have hread := h.read
    revert hread
    decide

end Boreas.Intercept
