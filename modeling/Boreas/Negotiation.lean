import Boreas.Dialogue
import Boreas.Reader
import Boreas.Relay

/-! # Negotiations

`Negotiation` of sansio.rs: a machine that is offered all the server has sent so far, again and again as more
arrives.  `Progress` is a machine in use; `Agree` says of two uses that they have written the same and come to the
same verdict.  Any two uses of a machine that `Speaks` a dialogue agree (`Speaks.agree`).  `negotiate` is the driver;
what it offers is `Driven`. -/

namespace Boreas

open Runs

/-- A negotiation: `advance` takes the input and the output buffer. -/
structure Negotiation where
  State : Type
  Output : Type
  advance : State → Bytes → Bytes → State × Bytes × Except ProxyError (Decoded Output)

/-- A machine in use: what it was offered last, what it has written, and its last verdict. -/
structure Progress (N : Negotiation) where
  state : N.State
  offered : Option Bytes
  written : Bytes
  verdict : Except ProxyError (Decoded N.Output)

namespace Progress

variable {N : Negotiation}

def new (state : N.State) : Progress N := ⟨state, none, [], .ok .incomplete⟩

def offer (u : Progress N) (input : Bytes) : Progress N :=
  let (state, out, verdict) := N.advance u.state input []
  ⟨state, some input, u.written ++ out, verdict⟩

def Follows (u : Progress N) (input : Bytes) : Prop :=
  match u.offered with
  | none => input = []
  | some last => last <+: input

/-- Two uses that were offered the same last, or of which one has ended on a beginning of what the other was offered,
have written the same and have the same verdict. -/
def Agree (u v : Progress N) : Prop :=
  ∀ p q, u.offered = some p → v.offered = some q → p <+: q → p = q ∨ u.verdict ≠ .ok .incomplete →
    u.written = v.written ∧ u.verdict = v.verdict

end Progress

/-! ### Machines that speak a dialogue -/

def verdictOf {α : Type} : Option (Except ProxyError (α × ℕ)) → Except ProxyError (Decoded α)
  | none => .ok .incomplete
  | some (.error e) => .error e
  | some (.ok (value, consumed)) => .ok (.complete value consumed)

/-- The machine, from `s`, follows a dialogue behind a greeting, as long as it is used as `Polite` says. -/
structure Speaks (N : Negotiation) (s : N.State) (Polite : Progress N → Bytes → Prop) where
  dialogue : Dialogue UInt8 UInt8 (Except ProxyError (N.Output × ℕ))
  start : dialogue.State
  greeting : Bytes
  Tied : N.State → dialogue.State → Prop
  polite_last : ∀ {u input verdict}, Polite u input → dialogue.Last verdict → u.verdict ≠ verdictOf (some verdict)
  first : ∃ s', N.advance s [] [] =
      (s', greeting ++ (dialogue.advance start []).2.1, verdictOf (dialogue.advance start []).2.2) ∧
    Tied s' (dialogue.advance start []).1
  next : ∀ {u d input}, Tied u.state d → Polite u input → u.offered ≠ none → ∃ s', N.advance u.state input [] =
      (s', (dialogue.advance d input).2.1, verdictOf (dialogue.advance d input).2.2) ∧
    Tied s' (dialogue.advance d input).1

namespace Speaks

open Progress

variable {N : Negotiation} {s : N.State} {Polite : Progress N → Bytes → Prop}

structure At (S : Speaks N s Polite) (u : Progress N) (input : Bytes) : Prop where
  written : u.written = S.greeting ++ (S.dialogue.advance S.start input).2.1
  verdict : u.verdict = verdictOf (S.dialogue.advance S.start input).2.2
  tied : S.Tied u.state (S.dialogue.advance S.start input).1

theorem At.offer {S : Speaks N s Polite} (h : At S u input)
    (hoff : u.offered ≠ none) (hpolite : Polite u (input ++ more)) : At S (u.offer (input ++ more)) (input ++ more) := by
  obtain ⟨s', hadv, htied⟩ := S.next h.tied hpolite hoff
  have hagain := S.dialogue.advance_again more fun verdict hverd hlast =>
    S.polite_last hpolite hlast (by rw [h.verdict, hverd])
  have hoffer : u.offer (input ++ more) = ⟨s', some (input ++ more),
      u.written ++ (S.dialogue.advance (S.dialogue.advance S.start input).1 (input ++ more)).2.1,
      verdictOf (S.dialogue.advance (S.dialogue.advance S.start input).1 (input ++ more)).2.2⟩ := by
    simp only [Progress.offer, hadv]
  rw [hoffer]
  refine ⟨?_, ?_, ?_⟩
  · rw [hagain, h.written, List.append_assoc]
  · rw [hagain]
  · rw [hagain]
    exact htied

/-- **Where a use of the machine has come to** depends on what it was offered last alone. -/
theorem progress (S : Speaks N s Polite) (inputs : List Bytes)
    (h : Along offer (fun u input => Follows u input ∧ Polite u input) (new s) inputs)
    (hp : (run offer (new s) inputs).offered = some p) : At S (run offer (new s) inputs) p := by
  have hinv : (run offer (new s) inputs = new s) ∨
      ∃ p, (run offer (new s) inputs).offered = some p ∧ At S (run offer (new s) inputs) p := by
    refine run_invariant (I := fun u => u = new s ∨ ∃ p, u.offered = some p ∧ At S u p) ?_ inputs _ (.inl rfl) h
    rintro u input (rfl | ⟨p, hoff, hat⟩) ⟨hfoll, hpolite⟩
    · have hinput : input = [] := hfoll
      subst hinput
      obtain ⟨s', hadv, htied⟩ := S.first
      have hoffer : (new s).offer [] = ⟨s', some [], [] ++ (S.greeting ++ (S.dialogue.advance S.start []).2.1),
          verdictOf (S.dialogue.advance S.start []).2.2⟩ := by
        simp only [Progress.offer, new, hadv]
      rw [hoffer]
      exact .inr ⟨[], rfl, rfl, rfl, htied⟩
    · have hinput : p <+: input := by
        unfold Follows at hfoll
        rw [hoff] at hfoll
        exact hfoll
      obtain ⟨more, rfl⟩ := hinput
      exact .inr ⟨p ++ more, rfl, hat.offer (by rw [hoff]; exact nofun) hpolite⟩
  rcases hinv with hnew | ⟨p', hp', hat⟩
  · rw [hnew] at hp
    cases hp
  · rw [hp] at hp'
    cases hp'
    exact hat

theorem At.agree (hu : At S u p) (hv : At S v (p ++ more))
    (h : p = p ++ more ∨ u.verdict ≠ .ok .incomplete) : u.written = v.written ∧ u.verdict = v.verdict := by
  have hsame : S.dialogue.advance S.start (p ++ more) = S.dialogue.advance S.start p := by
    rcases h with hsame | hended
    · rw [← hsame]
    · refine S.dialogue.advance_ended more fun hnone => hended ?_
      rw [hu.verdict, hnone]
      rfl
  exact ⟨by rw [hu.written, hv.written, hsame], by rw [hu.verdict, hv.verdict, hsame]⟩

/-- **Any two uses agree.** -/
theorem agree (S : Speaks N s Polite) (ps qs : List Bytes)
    (hps : Along offer (fun u input => Follows u input ∧ Polite u input) (new s) ps)
    (hqs : Along offer (fun u input => Follows u input ∧ Polite u input) (new s) qs) :
    Agree (run offer (new s) ps) (run offer (new s) qs) := by
  rintro p q hp hq ⟨more, rfl⟩ h
  exact (S.progress ps hps hp).agree (S.progress qs hqs hq) h

end Speaks

/-! ### The driver -/

def maxNegotiation : ℕ := 16 * 1024

def sendAll (sending : Bytes) (sends : List (Except ErrorKind Unit)) :
    Except ErrorKind Unit × List (Except ErrorKind Unit) :=
  if sending = [] then (.ok (), sends)
  else (sends.headD (.ok ()), sends.tail)

/-- `negotiate`, on what the stream answers to sends and reads: the machine's progress, and the result once there is
one. -/
def negotiate {N : Negotiation} (u : Progress N) (received : Bytes) (sends : List (Except ErrorKind Unit)) :
    List (Except ErrorKind Bytes) → Progress N × Option (Except EgressError (N.Output × Bytes))
  | reads =>
    match (u.offer received).verdict, sendAll (N.advance u.state received []).2.1 sends with
    | .error e, _ => (u.offer received, some (.error (.proxy e)))
    | .ok _, (.error kind, _) => (u.offer received, some (.error (.io kind)))
    | .ok (.complete value consumed), (.ok (), _) =>
      if received.length < consumed then (u.offer received, some (.error (.proxy .header)))
      else (u.offer received, some (.ok (value, received.drop consumed)))
    | .ok .incomplete, (.ok (), sends) =>
      if maxNegotiation ≤ received.length then (u.offer received, some (.error (.proxy .header)))
      else
        match reads with
        | [] => (u.offer received, none)
        | .error kind :: _ => (u.offer received, some (.error (.io kind)))
        | .ok [] :: _ => (u.offer received, some (.error (.io .unexpectedEof)))
        | .ok (b :: read) :: reads => negotiate (u.offer received) (received ++ b :: read) sends reads

/-- The driver offers more than before, and only while the machine waits. -/
def Progress.Driven {N : Negotiation} (u : Progress N) (input : Bytes) : Prop :=
  u.Follows input ∧ (u.offered ≠ none → input ≠ [] ∧ u.verdict = .ok .incomplete)

theorem negotiate_driven : ∀ (reads : List (Except ErrorKind Bytes)) (u : Progress N) (recv : Bytes)
    (sends : List (Except ErrorKind Unit)), u.Driven recv →
      ∃ inputs, (negotiate u recv sends reads).1 = run Progress.offer u inputs ∧
        Along Progress.offer Progress.Driven u inputs := by
  intro reads
  induction reads with
  | nil =>
    intro u recv sends hdrv
    refine ⟨[recv], ?_, hdrv, trivial⟩
    unfold negotiate
    split <;> try rfl
    · split_ifs <;> rfl
    · split_ifs <;> rfl
  | cons read reads ih =>
    intro u recv sends hdrv
    unfold negotiate
    split
    · exact ⟨[recv], rfl, hdrv, trivial⟩
    · exact ⟨[recv], rfl, hdrv, trivial⟩
    · exact ⟨[recv], by split_ifs <;> rfl, hdrv, trivial⟩
    · next hverd _ =>
        split_ifs
        · exact ⟨[recv], rfl, hdrv, trivial⟩
        match read with
        | .error kind | .ok [] => exact ⟨[recv], rfl, hdrv, trivial⟩
        | .ok (b :: read) =>
          have hnext : (u.offer recv).Driven (recv ++ b :: read) :=
            ⟨List.prefix_append recv (b :: read), fun _ => ⟨by simp, hverd⟩⟩
          obtain ⟨inputs, hrun, halong⟩ := ih (u.offer recv) (recv ++ b :: read) _ hnext
          exact ⟨recv :: inputs, hrun, hdrv, halong⟩

end Boreas
