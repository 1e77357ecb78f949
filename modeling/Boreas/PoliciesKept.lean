import Boreas.ContentPolicy

/-! # Which policies survive the rewrite

A policy that is widened permits the stylesheet afterwards (`permitInlineStyle_widened`).  `relax_policy` looks at the
values that are visible ASCII only, so `keepsPolicies_iff`: no policy is lost, and injection is answered for only
where all permit it, exactly when every value is visible ASCII, or none is and each permits the stylesheet as it
stands. -/

namespace Boreas.Rewrite

open Http Intercept Words List

/-! ### The source expression of a stylesheet -/

def base64Alphabet : Bytes := ascii "ABCDEFGHIJKLMNOPQRSTUVWXYZabcdefghijklmnopqrstuvwxyz0123456789+/"

theorem base64Alphabet_eq : base64Alphabet =
    [65, 66, 67, 68, 69, 70, 71, 72, 73, 74, 75, 76, 77, 78, 79, 80, 81, 82, 83, 84, 85, 86, 87, 88, 89, 90, 97, 98,
    99, 100, 101, 102, 103, 104, 105, 106, 107, 108, 109, 110, 111, 112, 113, 114, 115, 116, 117, 118, 119, 120,
    121, 122, 48, 49, 50, 51, 52, 53, 54, 55, 56, 57, 43, 47] := by
  decide +kernel

def sextet (n : ℕ) : UInt8 := base64Alphabet.getD (n % 64) 61

def base64 : Bytes → Bytes
  | [] => []
  | [a] => [sextet (a.toNat / 4), sextet (a.toNat * 16), 61, 61]
  | [a, b] => [sextet (a.toNat / 4), sextet (a.toNat * 16 + b.toNat / 16), sextet (b.toNat * 4), 61]
  | a :: b :: c :: rest =>
    sextet (a.toNat / 4) :: sextet (a.toNat * 16 + b.toNat / 16) :: sextet (b.toNat * 4 + c.toNat / 64) ::
      sextet c.toNat :: base64 rest

/-- `HidingRules::source`: the expression that names a stylesheet by its SHA-256 digest. -/
def styleSource (digest : Bytes) : Bytes := ascii "'sha256-" ++ base64 digest ++ ascii "'"

/-- What a policy gains: one word of a directive that is not the keyword `'none'`. -/
structure IsSource (source : Bytes) : Prop where
  word : IsWord isBlank source
  clear : (59 : UInt8) ∉ source
  visible : ∀ b ∈ source, isVisibleAscii b = true
  notNone : eqIgnoreAsciiCase source (ascii "'none'") = false

def isSourceByte (b : UInt8) : Bool := b ∈ base64Alphabet ++ ascii "'=-"

theorem isSourceByte_sextet : isSourceByte (sextet n) = true := by
  refine decide_eq_true (mem_append.mpr ?_)
  obtain hlt | hge := Nat.lt_or_ge (n % 64) base64Alphabet.length
  · exact .inl (by simp [sextet, hlt])
  · exact .inr (by simp [sextet, hge, ascii])

theorem isSourceByte_of_mem_base64 : ∀ {digest : Bytes}, ∀ b ∈ base64 digest, isSourceByte b = true
  | [] => by simp [base64]
  | [a] | [a, b] => by simp [base64, isSourceByte_sextet, show isSourceByte 61 = true by simp [isSourceByte, ascii]]
  | a :: b :: c :: rest => by
    simpa [base64, isSourceByte_sextet] using isSourceByte_of_mem_base64

theorem isSourceByte_of_mem_styleSource : ∀ b ∈ styleSource digest, isSourceByte b = true := by
  have hopen : ∀ b ∈ ascii "'sha256-", isSourceByte b = true := by
    unfold isSourceByte
    rw [base64Alphabet_eq]
    decide +kernel
  have hclose : ∀ b ∈ ascii "'", isSourceByte b = true := by simp [isSourceByte, ascii]
  intro b hb
  obtain (hb | hb) | hb := mem_append.mp hb |>.imp_left mem_append.mp
  · exact hopen b hb
  · exact isSourceByte_of_mem_base64 b hb
  · exact hclose b hb

theorem isSourceByte_spec : ∀ b : UInt8, isSourceByte b = true →
    isBlank b = false ∧ b ≠ 59 ∧ isVisibleAscii b = true := by
  have h : ∀ b ∈ base64Alphabet ++ ascii "'=-", isBlank b = false ∧ b ≠ 59 ∧ isVisibleAscii b = true := by
    decide +kernel
  exact fun b hb => h b (of_decide_eq_true hb)

theorem isSource_styleSource (digest : Bytes) : IsSource (styleSource digest) where
  word :=
    { ne_nil := append_ne_nil_of_right_ne_nil _ (by decide)
      clear := fun b hb => (isSourceByte_spec b (isSourceByte_of_mem_styleSource b hb)).1 }
  clear := fun h => (isSourceByte_spec 59 (isSourceByte_of_mem_styleSource 59 h)).2.1 rfl
  visible := fun b hb => (isSourceByte_spec b (isSourceByte_of_mem_styleSource b hb)).2.2
  notNone := by
    -- already the second byte differs
    have hmap : (styleSource digest).map lower = 39 :: 115 :: ((ascii "ha256-").map lower ++
        (base64 digest).map lower ++ (ascii "'").map lower) := by
      unfold styleSource
      rw [map_append]
      rfl
    have hnone : (ascii "'none'").map lower = [39, 110, 111, 110, 101, 39] := by decide
    unfold eqIgnoreAsciiCase
    rw [hmap, hnone]
    simp

/-! ### Widening -/

def directivesOf (policy : Bytes) : List Bytes := pieces isBlank 59 policy

def governing (directives : List Bytes) : Option (ℕ × Bool) :=
  ((styleDirectives.findSome? (position directives)).map (·, false)).or
    ((position directives fallbackDirective).map (·, true))

def sourcesOf (directive : Bytes) : List Bytes := (splitWhitespace directive).drop 1

def widenedDirectives (directives : List Bytes) (index : ℕ) (inherited : Bool) (source : Bytes) : List Bytes :=
  let directive := directives.getD index []
  if inherited then
    directives ++ [intercalate (ascii " ") (ascii "style-src" :: sourcesOf directive ++ [source])]
  else directives.set index (directive ++ ascii " " ++ source)

theorem permitInlineStyle_eq : permitInlineStyle policy source =
    match governing (directivesOf policy) with
    | none => .granted
    | some (index, inherited) =>
      let sources := sourcesOf ((directivesOf policy).getD index [])
      if sources.any (eqIgnoreAsciiCase · (ascii "'none'")) then .refused
      else if source ∈ sources then .granted
      else if !sources.any isNonceOrHash && sources.any (eqIgnoreAsciiCase · (ascii "'unsafe-inline'")) then .granted
      else .widened (intercalate (ascii "; ") (widenedDirectives (directivesOf policy) index inherited source)) :=
  rfl

variable {policy source value : Bytes}

theorem widened_spec (h : permitInlineStyle policy source = .widened value) :
    ∃ index inherited, governing (directivesOf policy) = some (index, inherited) ∧
      (sourcesOf ((directivesOf policy).getD index [])).any (eqIgnoreAsciiCase · (ascii "'none'")) = false ∧
      value = intercalate (ascii "; ") (widenedDirectives (directivesOf policy) index inherited source) := by
  rw [permitInlineStyle_eq] at h
  rcases hgov : governing (directivesOf policy) with _ | ⟨index, inherited⟩
  · rw [hgov] at h
    cases h
  rw [hgov] at h
  dsimp only at h
  split_ifs at h with hnone _ _
  refine ⟨index, inherited, rfl, Bool.eq_false_iff.mpr hnone, ?_⟩
  exact (InlineStyle.widened.inj h).symm

variable {directives : List Bytes} {index : ℕ}

theorem splitWhitespace_of_position (h : position directives name = some index) :
    index < directives.length ∧ splitWhitespace (directives.getD index []) ≠ [] := by
  obtain ⟨hlt, hmatch, -⟩ := findIdx?_eq_some_iff_getElem.mp h
  refine ⟨hlt, fun hnil => ?_⟩
  rw [← getD_eq_getElem directives [] hlt, hnil] at hmatch
  cases hmatch

theorem position_of_governing
    (h : governing directives = some (index, inherited)) : ∃ name, position directives name = some index := by
  unfold governing at h
  cases hstyle : styleDirectives.findSome? (position directives) with
  | some found =>
    rw [hstyle] at h
    cases h
    obtain ⟨name, -, hname⟩ := exists_of_findSome?_eq_some hstyle
    exact ⟨name, hname⟩
  | none =>
    rw [hstyle] at h
    refine ⟨fallbackDirective, ?_⟩
    rcases hpos : position directives fallbackDirective with _ | found
    · rw [hpos] at h
      cases h
    rw [hpos] at h
    cases h
    rfl

theorem position_congr
    (h : ds.map (fun d => (splitWhitespace d).head?) = es.map (fun d => (splitWhitespace d).head?)) (name : Bytes) :
    position ds name = position es name := by
  have hmap : ∀ directives : List Bytes, position directives name =
      (directives.map fun d => (splitWhitespace d).head?).findIdx? fun word => word.any (eqIgnoreAsciiCase · name) :=
    fun directives => by rw [findIdx?_map]; rfl
  rw [hmap, hmap, h]

theorem governing_congr (h : ∀ name, position ds name = position es name) : governing ds = governing es := by
  unfold governing
  rw [show position ds = position es from funext h]

theorem isWord_style (hsrc : IsSource source) :
    ∀ w ∈ ascii "style-src" :: sourcesOf directive ++ [source], IsWord isBlank w := by
  intro w hw
  obtain hw | hw := mem_append.mp hw
  · obtain rfl | hw := mem_cons.mp hw
    · exact ⟨by decide, by simp [ascii, isBlank]⟩
    · exact isWord_of_mem (mem_of_mem_drop hw)
  · rw [mem_singleton.mp hw]
    exact hsrc.word

theorem forall_mem_widenedDirectives {P : UInt8 → Prop}
    (inherited : Bool) (hlt : index < directives.length) (hdirs : ∀ d ∈ directives, ∀ b ∈ d, P b)
    (hsrc : ∀ b ∈ source, P b) (hblank : P 32) (hname : ∀ b ∈ ascii "style-src", P b) :
    ∀ d ∈ widenedDirectives directives index inherited source, ∀ b ∈ d, P b := by
  have hdir : ∀ b ∈ directives.getD index [], P b := by
    rw [getD_eq_getElem _ _ hlt]
    exact hdirs _ (getElem_mem hlt)
  have hseparator : ∀ b ∈ ascii " ", P b := by simpa [show ascii " " = [32] by decide] using hblank
  intro d hd
  unfold widenedDirectives at hd
  cases inherited with
  | false =>
    obtain hd | rfl := mem_or_eq_of_mem_set hd
    · exact hdirs d hd
    intro b hb
    obtain (hb | hb) | hb := mem_append.mp hb |>.imp_left mem_append.mp
    · exact hdir b hb
    · exact hseparator b hb
    · exact hsrc b hb
  | true =>
    rw [if_pos rfl, mem_append, mem_singleton] at hd
    obtain hd | rfl := hd
    · exact hdirs d hd
    refine forall_mem_intercalate hseparator fun w hw => ?_
    obtain hw | hw := mem_append.mp hw
    · obtain rfl | hw := mem_cons.mp hw
      · exact hname
      · exact fun b hb => hdir b (mem_of_mem_words (mem_of_mem_drop hw) b hb)
    · rw [mem_singleton.mp hw]
      exact hsrc

theorem isPiece_widenedDirectives (inherited : Bool)
    (hsrc : IsSource source) (hlt : index < directives.length) (hold : ∀ d ∈ directives, IsPiece isBlank 59 d) :
    ∀ d ∈ widenedDirectives directives index inherited source, IsPiece isBlank 59 d := by
  have hclear := forall_mem_widenedDirectives (P := (· ≠ 59)) inherited hlt
    (fun d hd b hb heq => (hold d hd).clear (heq ▸ hb)) (fun b hb heq => hsrc.clear (heq ▸ hb)) (by decide)
    (by simp [ascii])
  have hdir : IsPiece isBlank 59 (directives.getD index []) := by
    rw [getD_eq_getElem _ _ hlt]
    exact hold _ (getElem_mem hlt)
  have hends : ∀ d ∈ widenedDirectives directives index inherited source, d ≠ [] ∧ Trimmed isBlank d := by
    intro d hd
    unfold widenedDirectives at hd
    rcases inherited with _ | _
    · obtain hd | rfl := mem_or_eq_of_mem_set hd
      · exact ⟨(hold d hd).ne_nil, (hold d hd).trimmed⟩
      · exact ⟨by simp [hsrc.word.ne_nil],
          hdir.trimmed.append _ hsrc.word.trimmed hdir.ne_nil hsrc.word.ne_nil⟩
    rw [if_pos rfl, mem_append, mem_singleton] at hd
    obtain hd | rfl := hd
    · exact ⟨(hold d hd).ne_nil, (hold d hd).trimmed⟩
    · exact trimmed_intercalate _ (by simp) (isWord_style hsrc)
  exact fun d hd => ⟨(hends d hd).1, fun hmem => hclear d hd 59 hmem rfl, (hends d hd).2⟩

theorem governing_widenedDirectives (hsrc : IsSource source) (hgov : governing directives = some (index, inherited)) :
    ∃ index', governing (widenedDirectives directives index inherited source) = some (index', false) ∧
      sourcesOf ((widenedDirectives directives index inherited source).getD index' []) =
        sourcesOf (directives.getD index []) ++ [source] := by
  obtain ⟨name, hpos⟩ := position_of_governing hgov
  obtain ⟨hlt, hne⟩ := splitWhitespace_of_position hpos
  cases inherited with
  | false =>
    have hwords : splitWhitespace (directives.getD index [] ++ ascii " " ++ source) =
        splitWhitespace (directives.getD index []) ++ [source] := by
      rw [append_assoc]
      exact (words_append_cons _ _ rfl).trans (congrArg _ hsrc.word.words_eq)
    refine ⟨index, ?_, ?_⟩
    · rw [← hgov]
      refine governing_congr (position_congr ?_)
      show (directives.set index _).map _ = _
      rw [map_set, hwords, head?_append_of_ne_nil _ hne, getD_eq_getElem _ _ hlt]
      refine ext_getElem (by simp) fun i hi hi' => ?_
      rw [getElem_set]
      split_ifs with heq
      · subst heq
        rw [getElem_map]
      · rfl
    · show sourcesOf ((directives.set index _).getD index []) = _
      rw [getD_eq_getElem _ _ (by rwa [length_set]), getElem_set_self]
      unfold sourcesOf
      rw [hwords, drop_append_of_le_length (length_pos_of_ne_nil hne)]
  | true =>
    have hwords : splitWhitespace (intercalate (ascii " ")
        (ascii "style-src" :: sourcesOf (directives.getD index []) ++ [source])) =
        ascii "style-src" :: sourcesOf (directives.getD index []) ++ [source] := by
      exact words_intercalate rfl (isWord_style hsrc)
    have hnone : styleDirectives.findSome? (position directives) = none := by
      unfold governing at hgov
      rcases hstyle : styleDirectives.findSome? (position directives) with _ | found
      · rfl
      rw [hstyle] at hgov
      cases hgov
    rw [findSome?_eq_none_iff] at hnone
    have hadded : ∀ name ∈ styleDirectives,
        position (widenedDirectives directives index true source) name =
          if eqIgnoreAsciiCase (ascii "style-src") name then some directives.length else none := by
      intro name hname
      show (directives ++ [_]).findIdx? _ = _
      rw [findIdx?_append, show directives.findIdx? _ = none from hnone name hname, findIdx?_singleton,
        hwords]
      show none.or ((if (some (ascii "style-src")).any _ then some 0 else none).map _) = _
      rw [Option.any_some]
      split_ifs
      · simp
      · rfl
    refine ⟨directives.length, ?_, ?_⟩
    · have hfound : styleDirectives.findSome? (position (widenedDirectives directives index true source)) =
          some directives.length := by
        unfold styleDirectives at hadded ⊢
        rw [findSome?_cons, hadded _ mem_cons_self, if_neg (by decide)]
        rw [findSome?_cons, hadded _ (by simp), if_pos (by decide)]
      unfold governing
      rw [hfound]
      rfl
    · show sourcesOf ((directives ++ [_]).getD directives.length []) = _
      rw [getD_append_right _ _ _ _ le_rfl, Nat.sub_self]
      show (splitWhitespace (intercalate _ _)).drop 1 = _
      rw [hwords]
      rfl

/-- **A widened policy permits the stylesheet.** -/
theorem permitInlineStyle_widened (hsrc : IsSource source)
    (h : permitInlineStyle policy source = .widened value) : permitInlineStyle value source = .granted := by
  obtain ⟨index, inherited, hgov, hnone, rfl⟩ := widened_spec h
  obtain ⟨name, hpos⟩ := position_of_governing hgov
  have hpcs := isPiece_widenedDirectives inherited hsrc (splitWhitespace_of_position hpos).1
    fun d hd => isPiece_of_mem hd
  have hread : directivesOf (intercalate (ascii "; ") (widenedDirectives (directivesOf policy) index inherited
      source)) = widenedDirectives (directivesOf policy) index inherited source := by
    exact pieces_intercalate rfl (by decide) hpcs
  obtain ⟨index', hgov', hsources⟩ := governing_widenedDirectives hsrc hgov
  rw [permitInlineStyle_eq, hread, hgov']
  dsimp only
  rw [hsources, if_neg ?_, if_pos (by simp)]
  rw [any_append, hnone, any_cons, hsrc.notNone]
  simp

theorem visible_widened (hsrc : IsSource source)
    (h : permitInlineStyle policy source = .widened value) (hpol : ∀ b ∈ policy, isVisibleAscii b = true) :
    ∀ b ∈ value, isVisibleAscii b = true := by
  obtain ⟨index, inherited, hgov, -, rfl⟩ := widened_spec h
  obtain ⟨name, hpos⟩ := position_of_governing hgov
  refine forall_mem_intercalate (by simp [ascii, isVisibleAscii]) ?_
  exact forall_mem_widenedDirectives inherited (splitWhitespace_of_position hpos).1
    (fun d hd b hb => hpol b (mem_of_mem_pieces hd b hb)) hsrc.visible (by decide)
      (by simp [ascii, isVisibleAscii])

/-! ### The whole map -/

def isText (value : Bytes) : Bool := value.all isVisibleAscii

/-- No policy is lost, every other field is as before, and injection is answered for only where all policies permit
the stylesheet. -/
structure KeepsPolicies (headers : HeaderMap) (source : Bytes) : Prop where
  values : Forall₂ (fun before after => after = before ∨ permitInlineStyle before source = .widened after)
    (headers.getAll .contentSecurityPolicy) ((relaxPolicy headers source).1.getAll .contentSecurityPolicy)
  others : ∀ name ≠ HeaderName.contentSecurityPolicy,
    (relaxPolicy headers source).1.getAll name = headers.getAll name
  permits : (relaxPolicy headers source).2 = true →
    ∀ value ∈ (relaxPolicy headers source).1.getAll .contentSecurityPolicy,
      permitInlineStyle value source = .granted

theorem getAll_foldl_append (headers : HeaderMap) :
    (values.foldl (fun headers value => headers.append name value) headers).getAll name =
      headers.getAll name ++ values := by
  induction values generalizing headers with
  | nil => simp
  | cons value values ih =>
    rw [foldl_cons, ih, HeaderMap.getAll_append, append_assoc]
    rfl

theorem relaxed_spec (hsrc : IsSource source) (hpol : isText policy = true) : isText (relaxed source policy) = true ∧
      (relaxed source policy = policy ∨ permitInlineStyle policy source = .widened (relaxed source policy)) ∧
      (permitInlineStyle policy source ≠ .refused → permitInlineStyle (relaxed source policy) source = .granted) := by
  unfold relaxed
  cases h : permitInlineStyle policy source with
  | granted => exact ⟨hpol, .inl rfl, fun _ => h⟩
  | refused => exact ⟨hpol, .inl rfl, fun hne => absurd rfl hne⟩
  | widened value =>
    refine ⟨?_, .inr rfl, fun _ => permitInlineStyle_widened hsrc h⟩
    exact all_eq_true.mpr (visible_widened hsrc h (all_eq_true.mp hpol))

theorem filterMap_toStr (vs : List Bytes) : vs.filterMap toStr = vs.filter isText := by
  rw [← filterMap_eq_filter]
  congr 1

theorem mapM_eq_self : ∀ {vs : List Bytes}, (∀ value ∈ vs, f value = some value) → vs.mapM f = some vs
  | [], _ => rfl
  | value :: vs, h => by
    rw [mapM_cons, h value mem_cons_self,
      mapM_eq_self fun value hvalue => h value (mem_cons_of_mem _ hvalue)]
    rfl

theorem headerValue_of_isText (h : isText value = true) : headerValue value = some value := by
  have hbyte : ∀ b, isVisibleAscii b = true → ((32 ≤ b && b != 127) || b == 9) = true := by
    intro b hb
    unfold isVisibleAscii at hb
    simp only [Bool.or_eq_true, Bool.and_eq_true, bne_iff_ne] at hb ⊢
    exact hb.imp_left fun hb => ⟨hb.1, fun heq => by simp [heq] at hb⟩
  exact if_pos (all_eq_true.mpr fun b hb => hbyte b (all_eq_true.mp h b hb))

theorem relaxPolicy_spec (hsrc : IsSource source) (headers : HeaderMap)
    (hne : (headers.getAll .contentSecurityPolicy).filter isText ≠ []) :
    (relaxPolicy headers source).1.getAll .contentSecurityPolicy =
        ((headers.getAll .contentSecurityPolicy).filter isText).map (relaxed source) ∧
      ((relaxPolicy headers source).2 = true ↔
        ∀ policy ∈ (headers.getAll .contentSecurityPolicy).filter isText, permitInlineStyle policy source ≠ .refused) := by
  have hrebuilt : (((headers.getAll .contentSecurityPolicy).filter isText).map (relaxed source)).mapM headerValue =
      some (((headers.getAll .contentSecurityPolicy).filter isText).map (relaxed source)) := by
    refine mapM_eq_self fun value hvalue => ?_
    obtain ⟨policy, hpol, rfl⟩ := mem_map.mp hvalue
    exact headerValue_of_isText (relaxed_spec hsrc (of_mem_filter hpol)).1
  unfold relaxPolicy
  rw [filterMap_toStr]
  rw [if_neg hne, hrebuilt]
  refine ⟨?_, ?_⟩
  · dsimp only
    rw [getAll_foldl_append, HeaderMap.getAll_remove, nil_append]
  · rw [all_eq_true]
    exact forall₂_congr fun _ _ => decide_eq_true_iff

/-- **Policies are kept exactly** when every value is visible ASCII, or none is and each permits the stylesheet as it
stands. -/
theorem keepsPolicies_iff (headers : HeaderMap) (digest : Bytes) : KeepsPolicies headers (styleSource digest) ↔
      (∀ value ∈ headers.getAll .contentSecurityPolicy, isText value = true) ∨
        ∀ value ∈ headers.getAll .contentSecurityPolicy,
          isText value = false ∧ permitInlineStyle value (styleSource digest) = .granted := by
  have hsrc := isSource_styleSource digest
  by_cases hnone : (headers.getAll .contentSecurityPolicy).filter isText = []
  · -- nothing is read, so nothing changes and injection is allowed
    have hsame : relaxPolicy headers (styleSource digest) = (headers, true) := by
      unfold relaxPolicy
      rw [filterMap_toStr]
      exact if_pos hnone
    rw [filter_eq_nil_iff] at hnone
    constructor
    · intro h
      refine .inr fun value hvalue => ⟨Bool.eq_false_iff.mpr (hnone value hvalue), ?_⟩
      have hperm := h.permits
      rw [hsame] at hperm
      exact hperm rfl value hvalue
    · intro h
      refine ⟨?_, ?_, ?_⟩
      · rw [hsame]
        exact forall₂_same.mpr fun value _ => .inl rfl
      · rw [hsame]
        exact fun _ _ => rfl
      · rw [hsame]
        intro _ value hvalue
        obtain h | h := h
        · exact absurd (h value hvalue) (hnone value hvalue)
        · exact (h value hvalue).2
  · obtain ⟨hvals, hinject⟩ := relaxPolicy_spec hsrc headers hnone
    constructor
    · intro h
      have hlen := h.values.length_eq
      rw [hvals, length_map] at hlen
      exact .inl (length_filter_eq_length_iff.mp hlen.symm)
    · intro h
      have hall : ∀ value ∈ headers.getAll .contentSecurityPolicy, isText value = true := by
        obtain h | h := h
        · exact h
        · obtain ⟨value, hvalue⟩ := exists_mem_of_ne_nil _ hnone
          obtain ⟨hmem, htext⟩ := mem_filter.mp hvalue
          exact absurd htext (Bool.eq_false_iff.mp (h value hmem).1)
      rw [filter_eq_self.mpr hall] at hvals hinject
      refine ⟨?_, fun name hname => getAll_relaxPolicy_of_ne headers hname, ?_⟩
      · rw [hvals, forall₂_map_right_iff]
        exact forall₂_same.mpr fun value hvalue => (relaxed_spec hsrc (hall value hvalue)).2.1
      · intro hans value hvalue
        rw [hvals] at hvalue
        obtain ⟨policy, hpol, rfl⟩ := mem_map.mp hvalue
        exact (relaxed_spec hsrc (hall policy hpol)).2.2 (hinject.mp hans policy hpol)

/-- A response with two policies: one for scripts, and one that forbids styles and has a byte outside ASCII in a
report address. -/
def twoPolicies : HeaderMap :=
  (HeaderMap.empty.append .contentSecurityPolicy (ascii "script-src 'self'")).append .contentSecurityPolicy
    (ascii "style-src 'none'; report-uri /" ++ [233])

/-- The policy that forbids styles is removed, and the stylesheet is injected. -/
theorem policy_lost : ¬ KeepsPolicies twoPolicies (styleSource (replicate 32 0)) ∧
    (relaxPolicy twoPolicies (styleSource (replicate 32 0))).1.getAll .contentSecurityPolicy =
      [ascii "script-src 'self'"] ∧ (relaxPolicy twoPolicies (styleSource (replicate 32 0))).2 = true := by
  have hvals : (relaxPolicy twoPolicies (styleSource (replicate 32 0))).1.getAll .contentSecurityPolicy =
      [ascii "script-src 'self'"] := by decide
  refine ⟨fun h => ?_, hvals, by decide⟩
  have hlen := h.values.length_eq
  exact absurd hlen (by decide)

end Boreas.Rewrite
