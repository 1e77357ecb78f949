import Boreas.Filter

/-! # Comments in hosts lines

`hosts_names` reads a hosts-file line twice: `parse_rule` takes the name after the address, and an iterator takes the
names behind it, which does not see a comment in the first name's place.  `beforeComment_iff` says for which lines
nothing of the comment is inserted. -/

namespace Boreas.Dns

open Text List

def inserts : Except RuleError Rule → Option (HostVerdict × Name)
  | .ok (.block name) => some (.blocked, name)
  | .ok (.allow name) => some (.allowed, name)
  | _ => none

variable (parseIp : Text → Option IpAddr)

def insertions (line : Text) : List (HostVerdict × Name) :=
  (hostsNames parseIp line).filterMap inserts

def HostPolicy.insertAll (policy : HostPolicy) (entries : List (HostVerdict × Name)) : HostPolicy :=
  entries.foldl (fun policy entry => policy.insertName entry.1 entry.2) policy

theorem addRule_policy : (addRule p rule).1 = p.1.insertAll (inserts rule).toList := by
  match rule with
  | .ok (.block _) | .ok (.allow _) | .ok (.deferred _) | .ok .ignored | .error _ => rfl

theorem foldl_addRule_policy (rules : List (Except RuleError Rule)) :
    (rules.foldl addRule p).1 = p.1.insertAll (rules.filterMap inserts) := by
  induction rules generalizing p with
  | nil => rfl
  | cons rule rules ih =>
    rw [foldl_cons, ih, addRule_policy]
    cases h : inserts rule with
    | none => rw [filterMap_cons_none h]; rfl
    | some entry => rw [filterMap_cons_some h]; rfl

theorem extendFromList_policy (pol : HostPolicy) (list : Text) :
    (pol.extendFromList parseIp list).1 = pol.insertAll ((lines list).flatMap (insertions parseIp)) := by
  unfold HostPolicy.extendFromList
  rw [foldl_addRule_policy, filterMap_flatMap]
  rfl

/-! ### Lines with a comment -/

def startsComment (token : Text) : Bool := token.head? = some '#'

def blocks (token : Text) : Option (HostVerdict × Name) := inserts ((ruleName token).map .block)

/-- The tokens of a line that starts with the address of a sink, cut at the first one that starts with `#`. -/
structure Commented (parseIp : Text → Option IpAddr) (line address : Text) (before : List Text) (comment : Text)
    (after : List Text) : Prop where
  tokens : splitWhitespace line = address :: (before ++ comment :: after)
  sink : (parseIp address).any isSink = true
  clear : ∀ token ∈ before, startsComment token = false
  marked : startsComment comment = true

variable {parseIp : Text → Option IpAddr} {line address comment : Text} {before after : List Text}

theorem parseRule_sink (htoks : splitWhitespace line = address :: host :: hosts)
    (hsink : (parseIp address).any isSink = true) : parseRule parseIp line = .ok .ignored ∨
      startsComment host = false ∧ parseRule parseIp line = (ruleName host).map .block := by
  have htrim : splitWhitespace (Text.trim line) = address :: host :: hosts :=
    (Words.words_trim isWhitespace line).trans htoks
  obtain ⟨ip, hip, hip'⟩ := (Option.any_eq_true _ _).mp hsink
  unfold parseRule
  by_cases hcomment : (Text.trim line = [] || isComment (Text.trim line)) = true
  · exact .inl (if_pos hcomment)
  rw [if_neg hcomment]
  have hentry : hostsEntry parseIp (Text.trim line) =
      some (if host.head? = some '#' then .ok .ignored else (ruleName host).map .block) := by
    unfold hostsEntry
    rw [htrim]
    simp [hip, hip']
  rw [hentry]
  by_cases hhash : host.head? = some '#'
  · exact .inl (if_pos hhash)
  · exact .inr ⟨decide_eq_false hhash, if_neg hhash⟩

theorem insertions_sink (htoks : splitWhitespace line = address :: host :: hosts)
    (hsink : (parseIp address).any isSink = true) : insertions parseIp line =
      (inserts (parseRule parseIp line)).toList ++
        (hosts.takeWhile fun token => !startsComment token).filterMap blocks := by
  have hnames : hostsNames parseIp line = parseRule parseIp line ::
      (hosts.takeWhile fun token => !startsComment token).map fun token => (ruleName token).map .block := by
    unfold hostsNames
    rw [htoks]
    simp only [hsink, if_true, drop_one, tail_cons]
    simp [startsComment]
  unfold insertions
  rw [hnames, filterMap_cons, filterMap_map]
  cases inserts (parseRule parseIp line) <;> rfl

theorem takeWhile_of_commented (rest : List Text) (hclear : ∀ token ∈ before, startsComment token = false)
    (hmarked : startsComment comment = true) :
    (before ++ comment :: rest).takeWhile (fun token => !startsComment token) = before := by
  rw [takeWhile_append_of_pos fun token h => by rw [hclear token h]; rfl,
    takeWhile_cons_of_neg (by rw [hmarked]; exact Bool.false_ne_true), append_nil]

/-- **When nothing of a comment is inserted.** A list inserts what its lines insert. What a sink's line inserts is named,
in order, by tokens before its comment, exactly if a name stands before the comment, or none of the tokens behind the
`#` token and before the next one is a name. -/
theorem beforeComment_iff (h : Commented parseIp line address before comment after) :
    (∀ (policy : HostPolicy) (list : Text), (policy.extendFromList parseIp list).1 =
        policy.insertAll ((lines list).flatMap (insertions parseIp))) ∧
      ((insertions parseIp line).Sublist (before.filterMap blocks) ↔
        before ≠ [] ∨ ∀ token ∈ after.takeWhile (fun token => !startsComment token), blocks token = none) := by
  refine ⟨extendFromList_policy parseIp, ?_⟩
  cases before with
  | nil =>
    have hrule : parseRule parseIp line = .ok .ignored := by
      obtain hign | ⟨hnot, -⟩ := parseRule_sink h.tokens h.sink
      · exact hign
      · rw [h.marked] at hnot
        cases hnot
    rw [insertions_sink h.tokens h.sink, hrule, filterMap_nil, sublist_nil]
    simp [inserts]
  | cons host hosts =>
    refine ⟨fun _ => .inl (cons_ne_nil _ _), fun _ => ?_⟩
    have hnames : insertions parseIp line = (inserts (parseRule parseIp line)).toList ++ hosts.filterMap blocks := by
      rw [insertions_sink h.tokens h.sink]
      exact congrArg (fun tokens => _ ++ List.filterMap blocks tokens)
        (takeWhile_of_commented after (fun token ht => h.clear token (mem_cons_of_mem _ ht)) h.marked)
    rw [hnames]
    obtain hign | ⟨-, hname⟩ := parseRule_sink h.tokens h.sink
    · rw [hign]
      exact (sublist_cons_self host hosts).filterMap blocks
    have hfirst : inserts (parseRule parseIp line) = blocks host := by rw [hname]; rfl
    have hall : (host :: hosts).filterMap blocks = (blocks host).toList ++ hosts.filterMap blocks := by
      rw [filterMap_cons]
      cases blocks host <;> rfl
    rw [hfirst, hall]

def readsSink (token : Text) : Option IpAddr := if token = "0.0.0.0".toList then some (.v4 0) else none

theorem readsSink_annotated : Commented readsSink "0.0.0.0 ads.example # tracker.example".toList "0.0.0.0".toList
    ["ads.example".toList] "#".toList ["tracker.example".toList] :=
  ⟨by decide, by decide, by decide, by decide⟩

theorem beforeComment_annotated : (insertions readsSink "0.0.0.0 ads.example # tracker.example".toList).Sublist
        (["ads.example".toList].filterMap blocks) ∧
      (insertions readsSink "0.0.0.0 ads.example # tracker.example".toList).length = 1 :=
  ⟨(beforeComment_iff readsSink_annotated).2.mpr (.inl (cons_ne_nil _ _)), by decide⟩

/-- The line has nothing but a comment after its address, and a word of the comment is blocked. -/
theorem comment_blocks :
    Commented readsSink "0.0.0.0 # ads.example".toList "0.0.0.0".toList [] "#".toList ["ads.example".toList] ∧
      parseRule readsSink "0.0.0.0 # ads.example".toList = .ok .ignored ∧
      utf8 "ads.example".toList ∈ (HostPolicy.new.extendFromList readsSink "0.0.0.0 # ads.example".toList).1.blocked :=
  ⟨⟨by decide, by decide, by decide, by decide⟩, by decide, by decide⟩

end Boreas.Dns
