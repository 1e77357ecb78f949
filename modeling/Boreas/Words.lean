import Mathlib.Data.List.DropRight

/-! # Words and separators

Lists cut at separators, over any type: the nonempty pieces (`words`), lists without separators at their ends
(`Trimmed`), and reading back what was joined (`words_intercalate`, `pieces_intercalate`). -/

namespace Boreas.Words

open List

variable {α : Type*}

/-! ### Pieces -/

theorem mem_splitOnP {p : α → Bool} : ∀ {xs piece : List α}, piece ∈ xs.splitOnP p → ∀ x ∈ piece, p x = false ∧ x ∈ xs
  | [], piece, h => by
    rw [splitOnP_nil, mem_singleton] at h
    simp [h]
  | x :: xs, piece, h => by
    have ih : ∀ piece ∈ xs.splitOnP p, ∀ y ∈ piece, p y = false ∧ y ∈ x :: xs := fun piece hpiece y hy =>
      have hy := mem_splitOnP hpiece y hy
      ⟨hy.1, mem_cons_of_mem x hy.2⟩
    rw [splitOnP_cons_eq_if_modifyHead] at h
    cases hx : p x with
    | true =>
      rw [hx, if_pos rfl, mem_cons] at h
      obtain rfl | h := h
      · simp
      · exact ih piece h
    | false =>
      rw [hx, if_neg Bool.false_ne_true] at h
      rcases hsplit : xs.splitOnP p with _ | ⟨first, rest⟩
      · exact absurd hsplit (splitOnP_ne_nil p xs)
      rw [hsplit, modifyHead_cons, mem_cons] at h
      obtain rfl | h := h
      · intro y hy
        obtain rfl | hy := mem_cons.mp hy
        · exact ⟨hx, mem_cons_self⟩
        · exact ih first (hsplit ▸ mem_cons_self) y hy
      · exact ih piece (hsplit ▸ mem_cons_of_mem _ h)

theorem forall_mem_intercalate {P : α → Prop} {sep : List α} (hsep : ∀ x ∈ sep, P x) :
    ∀ {pieces : List (List α)}, (∀ piece ∈ pieces, ∀ x ∈ piece, P x) → ∀ x ∈ sep.intercalate pieces, P x
  | [], _ => by simp
  | [piece], h => by simpa using h
  | piece :: next :: rest, h => by
    intro x hx
    rw [intercalate_cons_cons, mem_append, mem_append] at hx
    obtain (hx | hx) | hx := hx
    · exact h piece mem_cons_self x hx
    · exact hsep x hx
    · exact forall_mem_intercalate hsep (fun piece hpiece => h piece (mem_cons_of_mem _ hpiece)) x hx

theorem intercalate_pair (a b : α) : ∀ (first : List α) (rest : List (List α)),
    [a, b].intercalate (first :: rest) = [a].intercalate (first :: rest.map (b :: ·))
  | first, [] => by simp
  | first, next :: rest => by
    rcases rest with _ | ⟨second, rest⟩
    · simp [intercalate_cons_cons]
    have ih := intercalate_pair a b next (second :: rest)
    rw [intercalate_cons_cons, ih, map_cons, map_cons, map_cons,
      intercalate_cons_cons, intercalate_cons_cons, intercalate_cons_cons]
    simp

/-! ### Words -/

def words (p : α → Bool) (xs : List α) : List (List α) := (xs.splitOnP p).filter (· ≠ [])

structure IsWord (p : α → Bool) (xs : List α) : Prop where
  ne_nil : xs ≠ []
  clear : ∀ x ∈ xs, p x = false

variable {p : α → Bool}

theorem isWord_of_mem (h : word ∈ words p xs) : IsWord p word := by
  obtain ⟨hmem, hne⟩ := mem_filter.mp h
  exact ⟨of_decide_eq_true hne, fun x hx => (mem_splitOnP hmem x hx).1⟩

theorem mem_of_mem_words (h : word ∈ words p xs) : ∀ x ∈ word, x ∈ xs :=
  fun x hx => (mem_splitOnP (mem_of_mem_filter h) x hx).2

variable {xs : List α}

theorem IsWord.words_eq (h : IsWord p xs) : words p xs = [xs] := by
  unfold words
  rw [splitOnP_eq_singleton h.clear]
  simp [h.ne_nil]

theorem words_append_cons (xs ys : List α) (hsep : p sep = true) :
    words p (xs ++ sep :: ys) = words p xs ++ words p ys := by
  unfold words
  rw [splitOnP_append_cons xs ys hsep, filter_append]

theorem words_intercalate {p : α → Bool} {sep : α} (hsep : p sep = true) :
    ∀ {ws : List (List α)}, (∀ w ∈ ws, IsWord p w) → words p ([sep].intercalate ws) = ws
  | [], _ => by simp [words]
  | [w], h => by simpa using (h w mem_cons_self).words_eq
  | w :: next :: rest, h => by
    rw [intercalate_cons_cons, append_assoc, singleton_append, words_append_cons _ _ hsep,
      (h w mem_cons_self).words_eq,
      words_intercalate hsep fun w hw => h w (mem_cons_of_mem _ hw), singleton_append]

/-! ### Trimming -/

def trim (p : α → Bool) (xs : List α) : List α := (xs.dropWhile p).rdropWhile p

structure Trimmed (p : α → Bool) (xs : List α) : Prop where
  head : ∀ x ∈ xs.head?, p x = false
  last : ∀ x ∈ xs.getLast?, p x = false

theorem Trimmed.trim_eq (h : Trimmed p xs) : trim p xs = xs := by
  have hhead : xs.dropWhile p = xs := by
    cases xs with
    | nil => rfl
    | cons x xs => exact dropWhile_cons_of_neg (by simp [h.head x rfl])
  unfold trim
  rw [hhead, rdropWhile_eq_self_iff]
  intro hne
  rw [h.last _ (getLast_mem_getLast? hne)]
  exact Bool.false_ne_true

theorem trim_cons (h : p x = true) (xs : List α) : trim p (x :: xs) = trim p xs := by
  unfold trim
  rw [dropWhile_cons_of_pos h]

theorem trim_snoc (h : p x = true) (xs : List α) : trim p (xs ++ [x]) = trim p xs := by
  unfold trim
  rw [dropWhile_append]
  split_ifs with hempty
  · rw [List.isEmpty_iff.mp hempty, dropWhile_cons_of_pos h]
    rfl
  · exact rdropWhile_concat_pos p _ x h

theorem dropWhile_congr {p q : α → Bool} : ∀ {xs : List α}, (∀ x ∈ xs, p x = q x) → xs.dropWhile p = xs.dropWhile q
  | [], _ => rfl
  | x :: xs, h => by
    have hx := h x mem_cons_self
    by_cases hp : p x = true
    · rw [dropWhile_cons_of_pos hp, dropWhile_cons_of_pos (hx ▸ hp)]
      exact dropWhile_congr fun y hy => h y (mem_cons_of_mem _ hy)
    · rw [dropWhile_cons_of_neg hp, dropWhile_cons_of_neg (hx ▸ hp)]

theorem trim_congr (h : ∀ x ∈ xs, p x = q x) : trim p xs = trim q xs := by
  unfold trim List.rdropWhile
  rw [dropWhile_congr h, dropWhile_congr fun x hx => h x ((dropWhile_sublist q).subset (mem_reverse.mp hx))]

theorem mem_of_mem_trim (h : x ∈ trim p xs) : x ∈ xs := by
  have hpre := rdropWhile_prefix p (xs.dropWhile p)
  exact (dropWhile_sublist p).subset (hpre.subset h)

theorem trimmed_trim (p : α → Bool) (xs : List α) : Trimmed p (trim p xs) := by
  constructor
  · intro x hx
    have hpre := rdropWhile_prefix p (xs.dropWhile p)
    have hx' : x ∈ (xs.dropWhile p).head? := by
      obtain ⟨rest, hrest⟩ := hpre
      unfold trim at hx
      rw [← hrest]
      cases hdrop : (xs.dropWhile p).rdropWhile p with
      | nil => simp [hdrop] at hx
      | cons y ys => simpa [hdrop] using hx
    have hnot := head?_dropWhile_not p xs
    rw [hx'] at hnot
    simpa using hnot
  · intro x hx
    have hne : (xs.dropWhile p).rdropWhile p ≠ [] := fun hnil => by simp [trim, hnil] at hx
    have hlast := rdropWhile_last_not p _ hne
    rw [trim, getLast?_eq_getLast_of_ne_nil hne, Option.mem_some_iff] at hx
    rw [← hx]
    exact Bool.eq_false_iff.mpr hlast

theorem words_dropWhile (p : α → Bool) : ∀ xs : List α, words p (xs.dropWhile p) = words p xs
  | [] => rfl
  | x :: xs => by
    by_cases h : p x = true
    · rw [dropWhile_cons_of_pos h, words_dropWhile p xs]
      exact (words_append_cons [] xs h).symm
    · rw [dropWhile_cons_of_neg h]

theorem words_rdropWhile : words p (xs.rdropWhile p) = words p xs := by
  induction xs using List.reverseRecOn with
  | nil => rfl
  | append_singleton xs x ih =>
    by_cases h : p x = true
    · rw [rdropWhile_concat_pos p xs x h, ih, words_append_cons xs [] h]
      exact (append_nil _).symm
    · rw [rdropWhile_concat_neg p xs x h]

theorem words_trim (p : α → Bool) (xs : List α) : words p (trim p xs) = words p xs := by
  unfold trim
  rw [words_rdropWhile, words_dropWhile]

theorem IsWord.trimmed (h : IsWord p xs) : Trimmed p xs :=
  ⟨fun x hx => h.clear x (mem_of_mem_head? hx), fun x hx => h.clear x (mem_of_mem_getLast? hx)⟩

theorem Trimmed.append (ys : List α) (hx : Trimmed p xs) (hz : Trimmed p zs)
    (hxs : xs ≠ []) (hzs : zs ≠ []) : Trimmed p (xs ++ ys ++ zs) := by
  constructor
  · intro x hmem
    rw [append_assoc, head?_append_of_ne_nil _ hxs] at hmem
    exact hx.head x hmem
  · intro x hmem
    rw [getLast?_append_of_ne_nil _ hzs] at hmem
    exact hz.last x hmem

theorem trimmed_intercalate {p : α → Bool} (sep : List α) : ∀ {ws : List (List α)}, ws ≠ [] → (∀ w ∈ ws, IsWord p w) →
    sep.intercalate ws ≠ [] ∧ Trimmed p (sep.intercalate ws)
  | [], h, _ => absurd rfl h
  | [w], _, h => by simpa using ⟨(h w mem_cons_self).ne_nil, (h w mem_cons_self).trimmed⟩
  | w :: next :: rest, _, h => by
    obtain ⟨hne, htrim⟩ := trimmed_intercalate sep (cons_ne_nil next rest)
      fun w hw => h w (mem_cons_of_mem _ hw)
    have hw := h w mem_cons_self
    rw [intercalate_cons_cons]
    exact ⟨by simp [hw.ne_nil], hw.trimmed.append sep htrim hw.ne_nil hne⟩

/-! ### Trimmed pieces -/

variable [DecidableEq α]

def pieces (p : α → Bool) (sep : α) (xs : List α) : List (List α) := ((xs.splitOn sep).map (trim p)).filter (· ≠ [])

structure IsPiece (p : α → Bool) (sep : α) (xs : List α) : Prop where
  ne_nil : xs ≠ []
  clear : sep ∉ xs
  trimmed : Trimmed p xs

theorem isPiece_of_mem (h : piece ∈ pieces p sep xs) : IsPiece p sep piece := by
  obtain ⟨hmem, hne⟩ := mem_filter.mp h
  obtain ⟨raw, hraw, rfl⟩ := mem_map.mp hmem
  refine ⟨of_decide_eq_true hne, fun hsep => ?_, trimmed_trim p raw⟩
  have hclear := (mem_splitOnP hraw sep (mem_of_mem_trim hsep)).1
  simp at hclear

theorem mem_of_mem_pieces (h : piece ∈ pieces p sep xs) : ∀ x ∈ piece, x ∈ xs := by
  obtain ⟨raw, hraw, rfl⟩ := mem_map.mp (mem_of_mem_filter h)
  exact fun x hx => (mem_splitOnP hraw x (mem_of_mem_trim hx)).2

/-- **Joined pieces are read back**, with a blank after every separator. -/
theorem pieces_intercalate (hblank : p blank = true) (hne : sep ≠ blank)
    (h : ∀ piece ∈ ps, IsPiece p sep piece) : pieces p sep ([sep, blank].intercalate ps) = ps := by
  rcases ps with _ | ⟨first, rest⟩
  · simp [pieces, trim]
  have htrim : (first :: rest.map (blank :: ·)).map (trim p) = first :: rest := by
    rw [map_cons, map_map, (h first mem_cons_self).trimmed.trim_eq]
    congr 1
    have hrest : ∀ piece ∈ rest, trim p (blank :: piece) = piece := by
      intro piece hpiece
      rw [trim_cons hblank, (h piece (mem_cons_of_mem _ hpiece)).trimmed.trim_eq]
    calc rest.map (trim p ∘ (blank :: ·)) = rest.map id := map_congr_left hrest
      _ = rest := map_id rest
  unfold pieces
  rw [intercalate_pair, splitOn_intercalate sep ?_ (cons_ne_nil _ _), htrim]
  · exact filter_eq_self.mpr fun piece hpiece => decide_eq_true (h piece hpiece).ne_nil
  · intro piece hpiece
    obtain rfl | hpiece := mem_cons.mp hpiece
    · exact (h piece mem_cons_self).clear
    · obtain ⟨raw, hraw, rfl⟩ := mem_map.mp hpiece
      simp [hne, (h raw (mem_cons_of_mem _ hraw)).clear]

end Boreas.Words
