import Boreas.HostsLines

/-! # Filter lists one after the other

`lists_compose`: extending a policy with lists follows the concatenation of the lists, in either order and however
often, and the report of a concatenation is the merge of the reports. -/

namespace Boreas.Dns

open List hiding after cons insert merge min nil

/-! ### The sets a list of rules makes -/

namespace HostPolicy

def named (verdict : HostVerdict) (entries : List (HostVerdict × Name)) : Finset Bytes :=
  ((entries.filter (·.1 = verdict)).map (·.2.bytes)).toFinset

theorem insertAll_eq (p : HostPolicy) : p.insertAll entries =
    ⟨p.allowed ∪ named .allowed entries, p.blocked ∪ named .blocked entries,
      p.inspected ∪ named .inspected entries⟩ := by
  induction entries generalizing p with
  | nil => simp [insertAll, named]
  | cons entry entries ih =>
    obtain ⟨verdict, n⟩ := entry
    change (p.insertName verdict n).insertAll entries = _
    rw [ih]
    cases verdict <;> simp [insertName, named, Finset.insert_union]

theorem insertAll_congr (p : HostPolicy) (h : ∀ e, e ∈ es ↔ e ∈ fs) : p.insertAll es = p.insertAll fs := by
  have hnamed : ∀ v, named v es = named v fs := fun v => by
    ext bytes
    simp [named, h]
  simp only [insertAll_eq, hnamed]

end HostPolicy

/-! ### Reports -/

def saturatingAdd (a b : ℕ) : ℕ := min (a + b) (2 ^ 32 - 1)

def Deferrals.add (d e : Deferrals) : Deferrals where
  needsUrl := saturatingAdd d.needsUrl e.needsUrl
  needsRequestContext := saturatingAdd d.needsRequestContext e.needsRequestContext
  cosmetic := saturatingAdd d.cosmetic e.cosmetic
  hostsMapping := saturatingAdd d.hostsMapping e.hostsMapping
  pattern := saturatingAdd d.pattern e.pattern

namespace ListReport

def merge (r s : ListReport) : ListReport where
  blocked := saturatingAdd r.blocked s.blocked
  allowed := saturatingAdd r.allowed s.allowed
  ignored := saturatingAdd r.ignored s.ignored
  malformed := saturatingAdd r.malformed s.malformed
  deferred := r.deferred.add s.deferred

/-- The counters are 32-bit. -/
def Fits (r : ListReport) : Prop :=
  ∀ n ∈ [r.blocked, r.allowed, r.ignored, r.malformed, r.deferred.needsUrl, r.deferred.needsRequestContext,
    r.deferred.cosmetic, r.deferred.hostsMapping, r.deferred.pattern], n < 2 ^ 32

theorem merge_comm (r s : ListReport) : r.merge s = s.merge r := by
  simp [merge, Deferrals.add, saturatingAdd, Nat.add_comm]

theorem merge_assoc (r s t : ListReport) : (r.merge s).merge t = r.merge (s.merge t) := by
  have hassoc : ∀ a b c, saturatingAdd (saturatingAdd a b) c = saturatingAdd a (saturatingAdd b c) := by
    unfold saturatingAdd
    omega
  simp [merge, Deferrals.add, hassoc]

theorem saturatingAdd_zero (h : n < 2 ^ 32) : saturatingAdd n 0 = n := by
  unfold saturatingAdd
  omega

theorem merge_default {r : ListReport} (h : r.Fits) : r.merge .default = r := by
  obtain ⟨_, _, _, _, _⟩ := r
  simp_all [Fits, merge, Deferrals.add, default, saturatingAdd_zero]

theorem fits_default : default.Fits := by simp [Fits, default]

end ListReport

open ListReport Text

theorem addRule_report (h : r.Fits) (rule : Except RuleError Rule) :
    (addRule (p, r) rule).2.Fits ∧ (addRule (p, r) rule).2 = r.merge (addRule (q, .default) rule).2 := by
  have hfits : ∀ n, bump n < 2 ^ 32 := by
    unfold bump
    omega
  have hone : ∀ n, saturatingAdd n (bump 0) = bump n := fun _ => rfl
  obtain ⟨_, _, _, _, _, _, _, _, _⟩ := r
  match rule with
  | .ok (.block _) | .ok (.allow _) | .ok .ignored | .error _ =>
    simp_all [Fits, addRule, merge, Deferrals.add, ListReport.default, saturatingAdd_zero]
  | .ok (.deferred reason) =>
    cases reason <;>
      simp_all [Fits, addRule, Deferrals.count, merge, Deferrals.add, ListReport.default, saturatingAdd_zero]

theorem foldl_addRule_report (h : r.Fits) (rules : List (Except RuleError Rule)) :
    (rules.foldl addRule (p, r)).2.Fits ∧
      (rules.foldl addRule (p, r)).2 = r.merge (rules.foldl addRule (q, .default)).2 := by
  induction rules generalizing p q r with
  | nil => exact ⟨h, (merge_default h).symm⟩
  | cons rule rules ih =>
    obtain ⟨hfits, heq⟩ := addRule_report (p := p) (q := q) h rule
    obtain ⟨hfits', heq'⟩ := ih (p := (addRule (p, r) rule).1) (q := q) hfits
    have hfirst := (ih (p := (addRule (q, .default) rule).1) (q := q)
      (addRule_report (p := q) (q := q) fits_default rule).1).2
    refine ⟨hfits', heq'.trans ?_⟩
    rw [foldl_cons, hfirst, heq, merge_assoc]

/-! ### Lists -/

/-- Two lists one after the other, the second on a line of its own. -/
def joinLists (first second : Text) : Text :=
  if first = [] ∨ first.getLast? = some '\n' then first ++ second else first ++ '\n' :: second

theorem lines_append_cons : lines (first ++ '\n' :: second) = (first.splitOn '\n').map stripCr ++ lines second := by
  have hne : second.splitOn '\n' ≠ [] := splitOnP_ne_nil _ _
  unfold lines List.splitOn at *
  dsimp only
  rw [splitOnP_append_cons first second (by simp), dropLast_append_of_ne_nil hne, map_append,
    append_assoc, getLast?_append_of_ne_nil _ hne]

theorem getLast_splitOn : ∀ {list : Text}, list ≠ [] → list.getLast? ≠ some '\n' →
    (list.splitOn '\n').getLast? ≠ some []
  | [], hne, _ => absurd rfl hne
  | [c], _, hlast => by
    have hc : c ≠ '\n' := by simpa using hlast
    simp [List.splitOn, splitOnP_cons_eq_if_modifyHead, hc]
  | c :: c' :: list, _, hlast => by
    have ih := getLast_splitOn (cons_ne_nil c' list) (by simpa using hlast)
    unfold List.splitOn at ih ⊢
    rw [splitOnP_cons_eq_if_modifyHead]
    rcases hpcs : (c' :: list).splitOnP (· == '\n') with _ | ⟨piece, pieces⟩
    · exact absurd hpcs (splitOnP_ne_nil _ _)
    rw [hpcs] at ih
    split_ifs
    · simpa using ih
    · cases pieces <;> simp_all

theorem hostsNames_stripCr : hostsNames parseIp (stripCr line) = hostsNames parseIp line := by
  unfold stripCr
  split_ifs with h
  · obtain ⟨init, rfl⟩ := getLast?_eq_some_iff.mp h
    have htrim : trim (init ++ ['\r']) = trim init := Words.trim_snoc (by decide) init
    have hsplit : splitWhitespace (init ++ ['\r']) = splitWhitespace init := by
      refine (Words.words_append_cons init [] (by decide)).trans ?_
      simp [Words.words, splitWhitespace]
    rw [dropLast_concat]
    unfold hostsNames parseRule
    rw [htrim, hsplit]
  · rfl

theorem flatMap_joinLists (parseIp : Text → Option IpAddr) (first second : Text) :
    (lines (joinLists first second)).flatMap (hostsNames parseIp) =
      (lines first).flatMap (hostsNames parseIp) ++ (lines second).flatMap (hostsNames parseIp) := by
  have hnil : lines [] = [] := by simp [lines]
  unfold joinLists
  split_ifs with h
  · rcases h with rfl | h
    · rw [hnil]
      rfl
    · obtain ⟨init, rfl⟩ := getLast?_eq_some_iff.mp h
      rw [append_assoc, singleton_append, lines_append_cons, lines_append_cons, hnil, append_nil,
        flatMap_append]
  · rw [not_or] at h
    rw [lines_append_cons, flatMap_append]
    congr 1
    obtain ⟨init, last, hpcs⟩ := (first.splitOn '\n').eq_nil_or_concat'.resolve_left (splitOnP_ne_nil _ _)
    have hlast : last ≠ [] := by simpa [hpcs] using getLast_splitOn h.1 h.2
    simp [lines, hpcs, hlast, hostsNames_stripCr]

/-- **Compiling lists**: extending with one list after another is extending with their concatenation, in either order
and however often; the report of the concatenation is the merge of the reports, and merging is a commutative monoid. -/
theorem lists_compose (parseIp : Text → Option IpAddr) (policy other : HostPolicy) (first second : Text) :
    let one := policy.extendFromList parseIp first
    let joined := policy.extendFromList parseIp (joinLists first second)
    joined.1 = (one.1.extendFromList parseIp second).1 ∧
      joined.1 = ((policy.extendFromList parseIp second).1.extendFromList parseIp first).1 ∧
      (one.1.extendFromList parseIp first).1 = one.1 ∧
      joined.2 = one.2.merge (other.extendFromList parseIp second).2 ∧
      (∀ r s t : ListReport, (r.merge s).merge t = r.merge (s.merge t)) ∧
      (∀ r s : ListReport, r.merge s = s.merge r) ∧
      one.2.Fits ∧ ∀ r : ListReport, r.Fits → r.merge .default = r ∧ ListReport.default.merge r = r := by
  have hpol : ∀ (p : HostPolicy) (es fs : List (HostVerdict × Name)),
      (p.insertAll es).insertAll fs = p.insertAll (es ++ fs) := fun p es fs => (foldl_append ..).symm
  have hjoin : (lines (joinLists first second)).flatMap (insertions parseIp) =
      (lines first).flatMap (insertions parseIp) ++ (lines second).flatMap (insertions parseIp) := by
    have := congrArg (List.filterMap inserts) (flatMap_joinLists parseIp first second)
    rwa [filterMap_append, filterMap_flatMap, filterMap_flatMap, filterMap_flatMap] at this
  have hfits := foldl_addRule_report (p := policy) (q := policy) fits_default
    ((lines first).flatMap (hostsNames parseIp))
  refine ⟨?_, ?_, ?_, ?_, merge_assoc, merge_comm, hfits.1, fun r hr => ⟨merge_default hr, ?_⟩⟩
  · simp only [extendFromList_policy, hpol, hjoin]
  · simp only [extendFromList_policy, hpol, hjoin]
    exact HostPolicy.insertAll_congr _ fun e => by simp only [mem_append, or_comm]
  · simp only [extendFromList_policy, hpol]
    exact HostPolicy.insertAll_congr _ fun e => by simp only [mem_append, or_self]
  · unfold HostPolicy.extendFromList
    rw [flatMap_joinLists, foldl_append]
    exact (foldl_addRule_report hfits.1 _).2
  · rw [merge_comm, merge_default hr]

end Boreas.Dns
