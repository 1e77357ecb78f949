import Mathlib

/-! # Runs of a transition function

`run step s es` is the state after the events `es`, and `Along step G s es` says that every step of the run meets the
guard `G`.  Two induction rules are used throughout: `run_invariant` (a predicate kept by every guarded step holds
after every guarded run) and `run_history` (the same for a predicate that also reads the events fed so
far).  `run_clocked` is the rule for events that carry clock readings. -/

namespace Boreas.Runs

open List

variable {σ ε : Type*} {step : σ → ε → σ} {G : σ → ε → Prop}

def run (step : σ → ε → σ) (s : σ) (es : List ε) : σ := es.foldl step s

def Along (step : σ → ε → σ) (G : σ → ε → Prop) : σ → List ε → Prop
  | _, [] => True
  | s, e :: es => G s e ∧ Along step G (step s e) es

instance decidableAlong [∀ s e, Decidable (G s e)] : ∀ (s : σ) (es : List ε), Decidable (Along step G s es)
  | _, [] => isTrue trivial
  | s, e :: es =>
    have := decidableAlong (step s e) es
    inferInstanceAs (Decidable (G s e ∧ Along step G (step s e) es))

variable (s : σ)

@[simp] theorem run_nil : run step s [] = s := rfl

@[simp] theorem run_cons (e : ε) (es : List ε) : run step s (e :: es) = run step (step s e) es := rfl

theorem run_append (es fs : List ε) : run step s (es ++ fs) = run step (run step s es) fs := foldl_append

@[simp] theorem run_snoc (es : List ε) (e : ε) :
    run step s (es ++ [e]) = step (run step s es) e := by rw [run_append]; rfl

theorem along_append (es fs : List ε) :
    Along step G s (es ++ fs) ↔ Along step G s es ∧ Along step G (run step s es) fs := by
  induction es generalizing s with
  | nil => simp [Along]
  | cons e es ih => simp [Along, ih, and_assoc]

theorem along_snoc (es : List ε) (e : ε) : Along step G s (es ++ [e]) ↔ Along step G s es ∧ G (run step s es) e := by
  simp [along_append, Along]

theorem along_of_mem : ∀ (es : List ε) (s : σ), (∀ e ∈ es, ∀ s, G s e) → Along step G s es
  | [], _, _ => trivial
  | e :: es, s, h => ⟨h e mem_cons_self s,
      along_of_mem es (step s e) (fun e' he' => h e' (mem_cons_of_mem _ he'))⟩

theorem Along.guard {s : σ} (h : Along step G s (pre ++ e :: post)) :
    G (run step s pre) e := ((along_append s pre (e :: post)).mp h).2.1

theorem Along.left {s : σ} (h : Along step G s (es ++ fs)) : Along step G s es :=
  ((along_append s es fs).mp h).1

/-- **Invariant rule**: what every guarded step keeps holds after every guarded run. -/
theorem run_invariant {I : σ → Prop} (hstep : ∀ s e, I s → G s e → I (step s e)) :
    ∀ (es : List ε) (s : σ), I s → Along step G s es → I (run step s es)
  | [], _, hI, _ => hI
  | e :: es, s, hI, hG => run_invariant hstep es (step s e) (hstep s e hI hG.1) hG.2

/-- The invariant rule for runs without a guard. -/
theorem run_kept {I : σ → Prop} (hstep : ∀ s e, I s → I (step s e)) : ∀ (es : List ε) (s : σ), I s → I (run step s es)
  | [], _, hI => hI
  | e :: es, s, hI => run_kept hstep es (step s e) (hstep s e hI)

/-- **History rule**: an invariant over the events fed so far and the state they lead to. -/
theorem run_history {s : σ} {I : List ε → σ → Prop} (h0 : I [] s)
    (hstep : ∀ es e, I es (run step s es) → G (run step s es) e → I (es ++ [e]) (step (run step s es) e)) :
    ∀ es : List ε, Along step G s es → I es (run step s es) := by
  intro es
  induction es using List.reverseRecOn with
  | nil => exact fun _ => h0
  | append_singleton es e ih =>
    intro hG
    rw [along_snoc] at hG
    rw [run_snoc]
    exact hstep es e (ih hG.1) hG.2

/-- **Clock rule**: an invariant over the events fed so far that also reads a clock.  It never fails for the clock going
on, and an event with a reading needs it only up to that reading; so it holds of every run whose readings are in
order. -/
theorem run_clocked [Preorder τ] (reading : ε → Option τ) {s : σ} {I : List ε → σ → τ → Prop}
    (h0 : ∀ t, I [] s t) (hlater : ∀ es s t t', I es s t → t ≤ t' → I es s t')
    (htimed : ∀ es e now, reading e = some now → I es (run step s es) now → G (run step s es) e →
      I (es ++ [e]) (step (run step s es) e) now)
    (huntimed : ∀ es e t, reading e = none → I es (run step s es) t → G (run step s es) e →
      I (es ++ [e]) (step (run step s es) e) t)
    (es : List ε) (horder : (es.filterMap reading).Pairwise (· ≤ ·)) (hG : Along step G s es) (t : τ)
    (ht : ∀ now ∈ es.filterMap reading, now ≤ t) : I es (run step s es) t := by
  induction es using List.reverseRecOn generalizing t with
  | nil => exact h0 t
  | append_singleton es e ih =>
    rw [run_snoc]
    rw [along_snoc] at hG
    rw [filterMap_append, pairwise_append] at horder
    rw [filterMap_append] at ht
    obtain ⟨hpre, -, hlast⟩ := horder
    rcases he : reading e with _ | now
    · exact huntimed es e t he (ih hpre hG.1 t fun now h => ht now (mem_append_left _ h)) hG.2
    have hnow : now ∈ [e].filterMap reading := by simp [he]
    -- Up to this event the clock has not gone further than its reading.
    have hkept := ih hpre hG.1 now fun earlier h => hlast earlier h now hnow
    exact hlater _ _ now t (htimed es e now he hkept hG.2) (ht now (mem_append_right _ hnow))

end Boreas.Runs
