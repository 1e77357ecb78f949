import Boreas.Dns
import Boreas.Words

/-! # Host rules

`HostPolicy` (policy/dns.rs) holds three sets of normalised suffixes and judges a name by its suffixes, the most
specific first: an exception anywhere wins, else the first blocking or inspection rule.  `planQuery` turns the
judgment into what happens to an intercepted query, before any upstream is asked. -/

namespace Boreas.Dns

open List

/-! ### Names from text, and their suffixes -/

theorem dot_notMem_of_mem_splitOn {bytes : Bytes} (h : part ∈ bytes.splitOn dot) : dot ∉ part :=
  fun hmem => by simpa using (Words.mem_splitOnP h dot hmem).1

theorem map_lower_joinLabels : (joinLabels labels).map lower = joinLabels (labels.map (List.map lower)) := by
  have hdot : [dot].map lower = [dot] := by decide
  unfold joinLabels
  induction labels with
  | nil => rfl
  | cons l ls ih =>
    rcases ls with _ | ⟨l', ls⟩
    · simp
    rw [intercalate_cons_cons, map_append, map_append, hdot, ih]
    exact (intercalate_cons_cons ..).symm

theorem normal_of_splitOn
    (h : ¬ (bytes ≠ [] ∧ ∃ label ∈ bytes.splitOn dot, label = [] ∨ maxLabelLen < label.length)) :
    Normal (bytes.map lower) := by
  by_cases hempty : bytes = []
  · exact ⟨[], by simp, by simp [hempty, joinLabels]⟩
  refine ⟨(bytes.splitOn dot).map (List.map lower), fun l hl => ?_, ?_⟩
  · obtain ⟨label, hlabel, rfl⟩ := mem_map.mp hl
    have hok : LabelOk label := by
      refine ⟨fun hnil => h ⟨hempty, label, hlabel, .inl hnil⟩, ?_, dot_notMem_of_mem_splitOn hlabel⟩
      by_contra hlong
      exact h ⟨hempty, label, hlabel, .inr (by omega)⟩
    exact ⟨labelOk_lower hok, by simp [Function.comp_def, lower_lower]⟩
  · rw [← map_lower_joinLabels]
    unfold joinLabels
    rw [intercalate_splitOn]

namespace Name

def parse (text : Bytes) : Option Name :=
  let trimmed := if text.getLast? = some dot then text.dropLast else text
  if hlong : maxNameChars < trimmed.length then none
  -- An empty label would be the wire terminator.
  else if hlabels : trimmed ≠ [] ∧ ∃ label ∈ trimmed.splitOn dot, label = [] ∨ maxLabelLen < label.length then none
  else some ⟨trimmed.map lower, by rw [length_map]; omega, normal_of_splitOn hlabels⟩

def isRoot (n : Name) : Bool := n.bytes.isEmpty

theorem normal_afterDot {bytes : Bytes} (h : Normal bytes)
    (hdrop : bytes.dropWhile (· != dot) = b :: rest) : Normal rest := by
  obtain ⟨labels, hok, rfl⟩ := h
  rcases labels with _ | ⟨l, ls⟩
  · simp [joinLabels] at hdrop
  have hnodot : ∀ c ∈ l, (c != dot) = true := fun c hc => by
    have := (hok l mem_cons_self).1.no_dot
    simp only [bne_iff_ne, ne_eq]
    rintro rfl
    exact this hc
  rcases ls with _ | ⟨l', ls⟩
  · rw [joinLabels, intercalate_singleton, dropWhile_eq_nil_iff.mpr hnodot] at hdrop
    cases hdrop
  rw [joinLabels, intercalate_cons_cons, append_assoc, dropWhile_append_of_pos hnodot] at hdrop
  cases hdrop
  exact ⟨l' :: ls, fun m hm => hok m (mem_cons_of_mem l hm), rfl⟩

def parent (n : Name) : Option Name :=
  match h : n.bytes.dropWhile (· != dot) with
  | [] => none
  | _ :: rest =>
    some ⟨rest, by
      have hlen := length_dropWhile_le (· != dot) n.bytes
      have hshort := n.short
      rw [h, length_cons] at hlen
      omega, normal_afterDot n.normal h⟩

def successors : ℕ → Name → List Name
  | 0, _ => []
  | fuel + 1, n => n :: (n.parent.elim [] (successors fuel))

def suffixes (n : Name) : List Name := if n.isRoot then [] else successors n.bytes.length n

end Name

/-! ### Judging a name -/

inductive HostVerdict
  | blocked
  | allowed
  | inspected
deriving DecidableEq, Repr

structure Judgment where
  verdict : HostVerdict
  matched : Option Name
deriving DecidableEq

structure RuleCounts where
  allowed : ℕ
  blocked : ℕ
  inspected : ℕ
deriving DecidableEq, Repr

structure HostPolicy where
  allowed : Finset Bytes
  blocked : Finset Bytes
  inspected : Finset Bytes
deriving DecidableEq

namespace HostPolicy

def new : HostPolicy := ⟨∅, ∅, ∅⟩

variable (p : HostPolicy)

def len : RuleCounts := ⟨p.allowed.card, p.blocked.card, p.inspected.card⟩

def insertName (verdict : HostVerdict) (name : Name) : HostPolicy :=
  match verdict with
  | .allowed => { p with allowed := insert name.bytes p.allowed }
  | .blocked => { p with blocked := insert name.bytes p.blocked }
  | .inspected => { p with inspected := insert name.bytes p.inspected }

def decides (suffix : Name) : Option Judgment :=
  if suffix.bytes ∈ p.blocked then some ⟨.blocked, some suffix⟩
  else if suffix.bytes ∈ p.inspected then some ⟨.inspected, some suffix⟩
  else none

def judgeLoop (p : HostPolicy) : List Name → Option Judgment → Judgment
  | [], decided => decided.getD ⟨.allowed, none⟩
  | suffix :: rest, decided =>
    if suffix.bytes ∈ p.allowed then ⟨.allowed, some suffix⟩
    else p.judgeLoop rest (decided.or (p.decides suffix))

def judge (name : Name) : Judgment := p.judgeLoop name.suffixes none

end HostPolicy

/-! ### Planning a query -/

def echPolicy : HostVerdict → EchPolicy
  | .inspected => .strip
  | .allowed => .preserve
  | .blocked => .preserve

def alpnPolicy : HostVerdict → AlpnPolicy
  | .inspected => .stripH3
  | .allowed => .preserve
  | .blocked => .preserve

def answerPolicy (verdict : HostVerdict) : AnswerPolicy := ⟨echPolicy verdict, alpnPolicy verdict⟩

inductive QueryPlan
  | refuse (rule : Name)
  | forward (policy : AnswerPolicy)
deriving DecidableEq

def planQuery (question : Question) (policy : HostPolicy) : QueryPlan :=
  let judgment := policy.judge question.name
  match judgment.verdict with
  | .blocked => .refuse (judgment.matched.getD .root)
  | verdict => .forward (answerPolicy verdict)

end Boreas.Dns
