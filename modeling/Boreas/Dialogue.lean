import Mathlib

/-! # Dialogues over a growing input

A dialogue reads an input that grows at its end.  In a state it waits for more, goes on to a state of lower rank with
some output, or ends with a verdict.  `advance` takes all the turns there are; offering an input and then a longer one
is offering the longer one at once (`advance_again`), and a verdict stays (`advance_ended`). -/

namespace Boreas

inductive Turn (σ β ν : Type*)
  | waits
  | goes (state : σ) (output : List β)
  | ends (state : σ) (verdict : ν)

/-- A dialogue. Verdicts of `Last` may leave a state from which it cannot be taken up again. -/
structure Dialogue (α β ν : Type*) where
  State : Type
  turn : State → List α → Turn State β ν
  rank : State → ℕ
  Last : ν → Prop
  stable : ∀ {s input} more, turn s input ≠ .waits → turn s (input ++ more) = turn s input
  rank_lt : ∀ {s s' input output}, turn s input = .goes s' output → rank s' < rank s
  ends_state : ∀ {s s' input verdict}, turn s input = .ends s' verdict → s' = s ∨ Last verdict

namespace Dialogue

variable {α β ν : Type*} {D : Dialogue α β ν} {s s' : D.State} {input : List α} {output : List β}

def advanceWithin (D : Dialogue α β ν) : ℕ → D.State → List α → D.State × List β × Option ν
  | 0, s, _ => (s, [], none)
  | turns + 1, s, input =>
    match D.turn s input with
    | .waits => (s, [], none)
    | .ends s' verdict => (s', [], some verdict)
    | .goes s' output =>
      let (s', more, verdict) := D.advanceWithin turns s' input
      (s', output ++ more, verdict)

def advance (D : Dialogue α β ν) (s : D.State) (input : List α) : D.State × List β × Option ν :=
  D.advanceWithin (D.rank s + 1) s input

theorem advanceWithin_of_rank : ∀ (n m : ℕ) (s : D.State), D.rank s < n → D.rank s < m →
    D.advanceWithin n s input = D.advanceWithin m s input := by
  intro n
  induction n with
  | zero => exact fun _ _ hn => absurd hn (Nat.not_lt_zero _)
  | succ n ih =>
    intro m s hn hm
    obtain ⟨m, rfl⟩ : ∃ k, m = k + 1 := ⟨m - 1, by omega⟩
    unfold advanceWithin
    cases hturn : D.turn s input with
    | waits | ends s' verdict => rfl
    | goes s' output =>
      have hrank := D.rank_lt hturn
      dsimp only
      rw [ih m s' (by omega) (by omega)]

theorem advance_waits (h : D.turn s input = .waits) : D.advance s input = (s, [], none) := by
  simp [advance, advanceWithin, h]

theorem advance_ends (h : D.turn s input = .ends s' verdict) : D.advance s input = (s', [], some verdict) := by
  simp [advance, advanceWithin, h]

theorem advance_goes (h : D.turn s input = .goes s' output) :
    D.advance s input = ((D.advance s' input).1, output ++ (D.advance s' input).2.1, (D.advance s' input).2.2) := by
  have hrank := D.rank_lt h
  have hturns : D.advanceWithin (D.rank s) s' input = D.advance s' input :=
    advanceWithin_of_rank _ _ s' hrank (Nat.lt_succ_self _)
  rw [← hturns]
  simp [advance, advanceWithin, h]

theorem turn_induction (input : List α) {P : D.State → Prop}
    (h : ∀ s, (∀ s' output, D.turn s input = .goes s' output → P s') → P s) : ∀ s, P s := by
  have hall : ∀ (n : ℕ) (s : D.State), D.rank s < n → P s := by
    intro n
    induction n with
    | zero => exact fun _ hn => absurd hn (Nat.not_lt_zero _)
    | succ n ih =>
      intro s hn
      refine h s fun s' output hturn => ih s' ?_
      have hrank := D.rank_lt hturn
      omega
  exact fun s => hall _ s (Nat.lt_succ_self _)

/-- **A verdict stays** when more input follows. -/
theorem advance_ended (more : List α) (h : (D.advance s input).2.2 ≠ none) :
    D.advance s (input ++ more) = D.advance s input := by
  induction s using turn_induction input with
  | h s ih =>
    cases hturn : D.turn s input with
    | waits =>
      rw [advance_waits hturn] at h
      exact absurd rfl h
    | ends s' verdict =>
      have hmore := (D.stable more (by rw [hturn]; exact nofun)).trans hturn
      rw [advance_ends hmore, advance_ends hturn]
    | goes s' output =>
      have hmore := (D.stable more (by rw [hturn]; exact nofun)).trans hturn
      rw [advance_goes hturn] at h
      rw [advance_goes hmore, advance_goes hturn, ih s' output hturn h]

/-- **Offering an input and then a longer one is offering the longer one at once.** -/
theorem advance_again (more : List α) (h : ∀ verdict, (D.advance s input).2.2 = some verdict → ¬ D.Last verdict) :
    D.advance s (input ++ more) = ((D.advance (D.advance s input).1 (input ++ more)).1,
        (D.advance s input).2.1 ++ (D.advance (D.advance s input).1 (input ++ more)).2.1,
        (D.advance (D.advance s input).1 (input ++ more)).2.2) := by
  induction s using turn_induction input with
  | h s ih =>
    cases hturn : D.turn s input with
    | waits =>
      rw [advance_waits hturn]
      rfl
    | ends s' verdict =>
      rw [advance_ends hturn] at h ⊢
      rcases D.ends_state hturn with rfl | hlast
      · rfl
      · exact absurd hlast (h verdict rfl)
    | goes s' output =>
      have hmore := (D.stable more (by rw [hturn]; exact nofun)).trans hturn
      rw [advance_goes hturn] at h ⊢
      have hrest := ih s' output hturn h
      rw [advance_goes hmore, hrest]
      simp only [List.append_assoc]

end Dialogue

end Boreas
